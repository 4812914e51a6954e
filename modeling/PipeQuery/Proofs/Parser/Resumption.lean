import PipeQuery.Proofs.Parser.Soundness

/-!
# Reading on behind a node

An expression with binary operators is read from the left: its rule reads the leftmost operand, and
goes on behind it. That is why what is claimed of a node is not that its rule reads it, but that its
rule comes to read on behind it.

## Main definitions

* `Closes`: the tokens behind which a rule over a floor is not read on
* `Resumes`: a rule comes to read on behind a node
* `Ready`: rows of goals that are read one after the other

## Main results

* `Ready.reads`, `Ready.reads_series`: a row is read, and so is a list
* `Ready.resumes_binary`, `Ready.resumes_signed`, `Ready.resumes_composite`: operators and pipes
-/

namespace PipeQuery.Parser

open Token (Kind KindSet)
open Script

/-- A token of this kind can follow a rule, and is not taken to continue it over the floor. -/
structure Closes (r : Rule) (floor : Nat) (k : Kind) : Prop where
  floor_le : floor ≤ r.highestFloor
  follow : k ∈ r.follow
  stops : ∀ c p, Climb.rule c = r → c.precedence k = some p → p < floor
  not_pipe : r = .query → k ≠ .pipe

instance (r : Rule) (floor : Nat) (k : Kind) : Decidable (Closes r floor k) :=
  decidable_of_iff (floor ≤ r.highestFloor ∧ k ∈ r.follow ∧
      (∀ c, Climb.rule c = r → ∀ p ∈ c.precedence k, p < floor) ∧ (r = .query → k ≠ .pipe))
    ⟨fun ⟨hf, hk, hs, hp⟩ => ⟨hf, hk, fun c p hc => hs c hc p, hp⟩,
      fun ⟨hf, hk, hs, hp⟩ => ⟨hf, hk, fun c hc p => hs c p hc, hp⟩⟩

/-- A token of this kind can stand behind a node of a rule over a floor: where it is an operator
that takes the node, the node is an operand of its level. -/
structure Borders (r : Rule) (floor : Nat) (t : Shape) (k : Kind) : Prop where
  floor_le : floor ≤ r.highestFloor
  follow : k ∈ r.follow
  operand : ∀ c p, Climb.rule c = r → c.precedence k = some p → p < floor ∨ t.Over c p

theorem Closes.borders {r : Rule} {floor : Nat} {k : Kind} (h : Closes r floor k) (t : Shape) :
    Borders r floor t k :=
  ⟨h.floor_le, h.follow, fun c p hc hp => .inl (h.stops c p hc hp)⟩

/-- How a rule goes on behind a node. -/
def resume : Rule → Nat → Script
  | .query, floor => go (.stages floor)
  | .booleanExpression, floor => go (.operators .logical floor)
  | .operatorExpression, floor => go (.operators .arithmetic floor)
  | _, _ => done

@[simp]
theorem resume_rule (c : Climb) (floor : Nat) : resume c.rule floor = go (.operators c floor) := by
  cases c <;> rfl

/-- The rule of a node comes to read on behind it. -/
def Resumes (r : Rule) (floor : Nat) (n : Draft) (v : List Kind) : Prop :=
  ∀ (rest : List Kind) (o : Outcome), Borders r floor n.shape (next rest) →
    Reads (resume r floor) n rest o → Reads (opening r floor (v ++ rest)) (.fresh r) (v ++ rest) o

/-- Rows of goals that are read one after the other. -/
inductive Ready : List Goal → List Shape → List Kind → Prop where
  | nil : Ready [] [] []
  | token {k : Kind} {f : Nat} {gs : List Goal} {ts : List Shape} {w : List Kind}
    (h : Ready gs ts w) : Ready (⟨.token k, f⟩ :: gs) (.token k :: ts) (k :: w)
  | rule {r : Rule} {f : Nat} {n : Draft} {gs : List Goal} {ts : List Shape} {v w : List Kind}
    (hn : Groups r f n.shape v) (hr : ∀ g ≤ f, Resumes r g n v) (h : Ready gs ts w) :
    Ready (⟨.rule r, f⟩ :: gs) (n.shape :: ts) (v ++ w)

variable {r : Rule} {f : Nat} {l : Label} {body gs : List Goal} {ss : List Symbol}
  {us ts : List Shape} {t : Shape}
  {v w rest : List Kind} {o : Outcome} {p : Script}

/-- Nothing is read behind a node that is closed. -/
theorem Closes.reads_resume (h : Closes r f (next rest)) (n : Draft) :
    Reads (resume r f) n rest (.read n rest) := by
  have operators (c : Climb) (hc : c.rule = r) :
      Reads (go (.operators c f)) n rest (.read n rest) := by
    refine .go ?_
    simp only [Phase.script]
    split
    · exact .done
    · rename_i p hp
      rw [if_pos (h.stops c p hc hp)]
      exact .done
  cases r with
  | query =>
    refine .go ?_
    have hpipe : next rest ≠ .pipe := h.not_pipe rfl
    simp only [Phase.script, hpipe, decide_false, Bool.false_and, Bool.false_eq_true, if_false]
    rw [if_pos (KindSet.mem_def.mp h.follow)]
    exact .done
  | booleanExpression => exact operators .logical rfl
  | operatorExpression => exact operators .arithmetic rfl
  | _ => exact .done

/-- Where its rule comes to read on behind a node, the node is read before a token that closes
it. -/
theorem Resumes.reads {n : Draft} (h : Resumes r f n v) (hk : Closes r f (next rest)) :
    Reads (opening r f (v ++ rest)) (.fresh r) (v ++ rest) (.read n rest) :=
  h rest _ (hk.borders _) (hk.reads_resume _)

/-! ## Rows -/

/-- The script that reads a row of goals. -/
def row : List Goal → Script → Script
  | [], p => p
  | ⟨.token k, _⟩ :: gs, p => .token k (row gs p)
  | ⟨.rule r, f⟩ :: gs, p => .call r f (row gs p)

/-- The kinds that can come next, where a row stands before a token of a set. -/
def starts (K : KindSet) : List Goal → KindSet
  | [] => K
  | g :: _ => g.symbol.first

/-- Each rule of a row before a token of a set is closed by what comes behind it. -/
def Closed (K : KindSet) : List Goal → Prop
  | [] => True
  | ⟨.token _, _⟩ :: gs => Closed K gs
  | ⟨.rule r, f⟩ :: gs => (∀ k, k ∈ starts K gs → Closes r f k) ∧ Closed K gs

instance decidableClosed (K : KindSet) : (gs : List Goal) → Decidable (Closed K gs)
  | [] => inferInstanceAs (Decidable True)
  | ⟨.token _, _⟩ :: gs => decidableClosed K gs
  | ⟨.rule r, f⟩ :: gs =>
    have := decidableClosed K gs
    inferInstanceAs (Decidable ((∀ k, k ∈ starts K gs → Closes r f k) ∧ Closed K gs))

variable {K : KindSet}

theorem Ready.next_mem (h : Ready gs ts w) (hk : next rest ∈ K) :
    next (w ++ rest) ∈ starts K gs := by
  cases h with
  | nil => exact hk
  | token => exact Symbol.mem_first_token.mpr rfl
  | rule ht =>
    obtain ⟨k, v, rfl, hk⟩ := ht.derives.head
    exact hk

theorem Ready.split (gs : List Goal) {hs : List Goal} (h : Ready (gs ++ hs) ts w) :
    ∃ us vs u v, ts = us ++ vs ∧ w = u ++ v ∧ Ready gs us u ∧ Ready hs vs v := by
  induction gs generalizing ts w with
  | nil => exact ⟨[], ts, [], w, rfl, rfl, .nil, h⟩
  | cons g gs ih =>
    cases h with
    | token h =>
      obtain ⟨us, vs, u, v, rfl, rfl, hu, hv⟩ := ih h
      exact ⟨_ :: us, vs, _ :: u, v, rfl, rfl, .token hu, hv⟩
    | rule ht hr h =>
      obtain ⟨us, vs, u, v, rfl, rfl, hu, hv⟩ := ih h
      exact ⟨_ :: us, vs, _ ++ u, v, rfl, (List.append_assoc ..).symm, .rule ht hr hu, hv⟩

theorem Reads.take {set : KindSet} {k : Kind} {n : Draft} (hk : set.contains k = true)
    (h : Reads p (n.add (.token k)) w o) : Reads (.step (.take set) p) n (k :: w) o :=
  .step (if_pos hk) h

theorem Reads.token {k : Kind} {n : Draft} (h : Reads p (n.add (.token k)) w o) :
    Reads (.token k p) n (k :: w) o :=
  .take (by simp) h

/-- **A row is read.** -/
theorem Ready.reads (h : Ready gs ts w) (hk : next rest ∈ K) {b : List Shape}
    (hp : Reads p ⟨l, b ++ ts⟩ rest o) (hc : Closed K gs := by decide) :
    Reads (row gs p) ⟨l, b⟩ (w ++ rest) o := by
  induction h generalizing b with
  | nil => simpa [row] using hp
  | @token k _ _ ts _ _ ih =>
    have hp : Reads p ⟨l, (b ++ [.token k]) ++ ts⟩ rest o := by simpa using hp
    exact .token (ih hp hc)
  | @rule r f n gs ts v w _ hr hrow ih =>
    have hn := (hr f (Nat.le_refl f)).reads (hc.1 _ (hrow.next_mem hk))
    have hp : Reads p ⟨l, (b ++ [n.shape]) ++ ts⟩ rest o := by simpa using hp
    rw [List.append_assoc]
    exact .call hn (ih hp hc.2)

/-! ## Lists -/

/-- A list can end before the tokens of a set. -/
def Series.EndsBefore (s : Series) (K : KindSet) : Prop :=
  ∀ k, k ∈ K → k ≠ s.separator ∧ Closes s.item 0 k

instance (s : Series) (K : KindSet) : Decidable (s.EndsBefore K) :=
  inferInstanceAs (Decidable (∀ k, k ∈ K → k ≠ s.separator ∧ Closes s.item 0 k))

theorem Series.closes_separator (s : Series) : Closes s.item 0 s.separator := by
  cases s <;> decide

/-- **A list is read.** -/
theorem Ready.reads_series {s : Series} {n : Nat}
    (h : Ready (ground (separated (.rule s.item) s.separator n)) ts w) (hk : next rest ∈ K)
    {b : List Shape} (hp : Reads s.ending ⟨l, b ++ ts⟩ rest o)
    (he : s.EndsBefore K := by decide) :
    Reads (call s.item 0 (go (.more s))) ⟨l, b⟩ (w ++ rest) o := by
  induction n generalizing ts w b with
  | zero =>
    refine h.reads (p := go (.more s)) hk (.go ?_) ⟨fun k hk => (he k hk).2, trivial⟩
    rw [Phase.script, if_neg (he _ hk).1]
    exact hp
  | succ n ih =>
    cases h with
    | rule _ hr htail =>
      cases htail with
      | token htail =>
        rw [List.append_assoc, List.cons_append]
        refine .call ((hr 0 (Nat.le_refl 0)).reads s.closes_separator) (.go ?_)
        rw [Phase.script, next_cons, if_pos rfl]
        refine .token (ih htail ?_)
        simpa [Draft.add] using hp

/-! ## Operators and pipes -/

theorem Climb.closes {c : Climb} (hf : f ≤ c.rule.highestFloor) {k : Kind} (hk : k ∈ c.rule.follow)
    (h : ∀ p, c.precedence k = some p → p < f) : Closes c.rule f k := by
  refine ⟨hf, hk, fun d p hd hp => ?_, fun hq => absurd hq c.rule_ne_query⟩
  obtain rfl := Climb.rule_injective hd
  exact h p hp

theorem opening_signed {c : Climb} {k : Kind} (hk : k ∈ c.signs) (floor : Nat) (w : List Kind) :
    opening c.rule floor (k :: w) = .step (.check floor c.rule.highestFloor) (label c.signed
      (.token k (call c.rule c.operandFloor (go (.operators c floor))))) := by
  cases c with
  | logical =>
    obtain rfl := List.mem_singleton.mp hk
    rfl
  | arithmetic =>
    simp only [Climb.signs, List.mem_cons, List.not_mem_nil, or_false] at hk
    rcases hk with rfl | rfl <;> rfl

theorem Ready.resumes_signed (c : Climb) {k : Kind} (hs : k ∈ c.signs)
    (h : Ready [⟨.token k, 0⟩, ⟨.rule c.rule, c.operandFloor⟩] us v) :
    Resumes c.rule f ⟨c.signed, us⟩ v := by
  intro rest o hb hp
  rw [resume_rule] at hp
  cases h with
  | token h =>
    have hclosed : Closed (.ofList [next rest]) [⟨.rule c.rule, c.operandFloor⟩] := by
      refine ⟨fun k hk => ?_, trivial⟩
      obtain rfl : k = next rest := by simpa [starts, KindSet.mem_def] using hk
      exact Climb.closes c.operandFloor_le_highestFloor hb.follow
        fun p => Climb.precedence_lt_operandFloor
    rw [List.cons_append, opening_signed hs]
    refine .step (if_pos hb.floor_le) (.step rfl (.token (h.reads ?_ hp hclosed)))
    simp [KindSet.mem_def]

theorem Ready.resumes_binary (c : Climb) {k : Kind} {q : Nat} (hk : c.precedence k = some q)
    (hf : f ≤ q)
    (h : Ready [⟨.rule c.rule, q⟩, ⟨.token k, 0⟩, ⟨.rule c.rule, q + 1⟩] us v) :
    Resumes c.rule f ⟨c.wrapper, us⟩ v := by
  intro rest o hb hp
  cases h with
  | @rule _ _ a _ _ x _ ha hra h =>
    cases h with
    | token h =>
      cases h with
      | @rule _ _ b _ _ y _ _ hrb h =>
        cases h
        -- The right operand ends here, and the next operator can take the whole.
        have hright : Closes c.rule (q + 1) (next rest) := by
          refine Climb.closes (Climb.succ_le_highestFloor hk) hb.follow fun p hp => ?_
          rcases hb.operand c p rfl hp with hlt | hover
          · omega
          · exact Nat.lt_succ_of_le (hover a.shape k b.shape q rfl hk)
        have hleft : Borders c.rule f a.shape (next (k :: (y ++ rest))) := by
          refine ⟨hb.floor_le, Climb.mem_follow hk, fun d p hd hdp => .inr ?_⟩
          obtain rfl := Climb.rule_injective hd
          obtain rfl := Option.some.inj (hk.symm.trans hdp)
          exact ha.over
        have hb := (hrb (q + 1) (Nat.le_refl _)).reads hright
        rw [List.append_assoc, List.cons_append, List.append_nil]
        refine hra f hf _ o hleft ?_
        rw [resume_rule] at hp ⊢
        refine .go ?_
        simp only [Phase.script, next_cons, hk, Nat.not_lt.mpr hf, if_false]
        exact .step rfl (.token (.call hb hp))

theorem Ready.resumes_composite
    (h : Ready (ground [.rule .query, .token .pipe, .rule .processingCommand]) us v) :
    Resumes .query f ⟨.compositeQuery, us⟩ v := by
  intro rest o hb hp
  obtain rfl : f = 0 := Nat.le_zero.mp hb.floor_le
  cases h with
  | @rule _ _ a _ _ x _ _ hra h =>
    cases h with
    | token h =>
      cases h with
      | @rule _ _ b _ _ y _ _ hrb h =>
        cases h
        have hright : Closes .processingCommand 0 (next rest) :=
          ⟨Nat.zero_le _, hb.follow, fun c p hc => absurd hc (by cases c <;> decide),
            fun h => absurd h (by decide)⟩
        have hleft : Borders .query 0 a.shape .pipe :=
          ⟨by decide, by decide, fun c p hc => absurd hc c.rule_ne_query⟩
        have hb := (hrb 0 (Nat.le_refl 0)).reads hright
        rw [List.append_assoc, List.cons_append, List.append_nil]
        refine hra 0 (Nat.le_refl 0) _ o hleft (.go ?_)
        simp only [Phase.script, next_cons, Nat.zero_le, decide_true, Bool.and_self, if_true]
        exact .step rfl (.token (.call hb hp))

end PipeQuery.Parser

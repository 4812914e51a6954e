import PipeQuery.Proofs.Parser.Script

/-!
# Reading by scripts

The scripts of the rules, carried out on the kinds of the tokens to come. A reading builds the
shape of a node and ends behind the last token read, or it gets stuck in front of a token at which
some rule would report its first error. Recovery from errors plays no part here.

## Main definitions

* `Draft`, `Outcome`: a node under construction, and how a reading ends
* `Move.apply`: what a step does to a node and the tokens to come
* `Reads`: the readings

## Main results

* `Reads.unique`: a script has one reading at most
* `Reads.suffix`: what a reading leaves is the end of what it was given
* `Reads.extend`: a reading depends on the tokens read and on the one behind them only
-/

namespace PipeQuery.Parser

open Token (Kind KindSet)

/-- A node under construction. -/
structure Draft where
  label : Label
  children : List Shape

namespace Draft

/-- The node of a rule that has just been opened. -/
def fresh (r : Rule) : Draft := ⟨.ofRule r, []⟩

/-- The node as it stands. -/
def shape (n : Draft) : Shape := .node n.label n.children

/-- The node with one more child. -/
def add (n : Draft) (t : Shape) : Draft := ⟨n.label, n.children ++ [t]⟩

end Draft

/-- How a reading ends. -/
inductive Outcome where
  /-- The script was carried out, and these tokens are left. -/
  | read (n : Draft) (rest : List Kind)
  /-- An error is met before these tokens. -/
  | stuck (rest : List Kind)

namespace Outcome

/-- The tokens left. -/
def rest : Outcome → List Kind
  | read _ rest | stuck rest => rest

/-- The same end before other tokens. -/
def before (rest : List Kind) : Outcome → Outcome
  | read n _ => read n rest
  | stuck _ => stuck rest

@[simp]
theorem rest_read (n : Draft) (w : List Kind) : (read n w).rest = w := rfl

@[simp]
theorem rest_stuck (w : List Kind) : (stuck w).rest = w := rfl

end Outcome

/-- What a step does to the node and the tokens to come, unless it meets an error. -/
def Move.apply : Move → Draft → List Kind → Option (Draft × List Kind)
  | relabel l, n, w => some (⟨l, n.children⟩, w)
  | wrap l, n, w => some (⟨l, [n.shape]⟩, w)
  | take _, _, [] => none
  | take set, n, k :: w => if set.contains k then some (n.add (.token k), w) else none
  | check floor highest, n, w => if floor ≤ highest then some (n, w) else none
  | fail _, _, _ => none
  | sync, _, _ => none

/-- The readings of a script, at a node and before the tokens to come. -/
inductive Reads : Script → Draft → List Kind → Outcome → Prop where
  | done {n : Draft} {w : List Kind} : Reads .done n w (.read n w)
  | step {m : Move} {p : Script} {n n' : Draft} {w w' : List Kind} {o : Outcome}
    (h : m.apply n w = some (n', w')) (hp : Reads p n' w' o) : Reads (.step m p) n w o
  | stuck {m : Move} {p : Script} {n : Draft} {w : List Kind} (h : m.apply n w = none) :
    Reads (.step m p) n w (.stuck w)
  | call {r : Rule} {f : Nat} {p : Script} {n n' : Draft} {w w' : List Kind} {o : Outcome}
    (hr : Reads (opening r f w) (.fresh r) w (.read n' w')) (hp : Reads p (n.add n'.shape) w' o) :
    Reads (.call r f p) n w o
  | callStuck {r : Rule} {f : Nat} {p : Script} {n : Draft} {w w' : List Kind}
    (hr : Reads (opening r f w) (.fresh r) w (.stuck w')) : Reads (.call r f p) n w (.stuck w')
  | go {q : Phase} {n : Draft} {w : List Kind} {o : Outcome} (h : Reads (q.script w) n w o) :
    Reads (.go q) n w o

variable {p : Script} {n : Draft} {w : List Kind} {o o' : Outcome}

/-- **A script has one reading at most.** -/
theorem Reads.unique (h : Reads p n w o) (h' : Reads p n w o') : o = o' := by
  induction h generalizing o' with
  | done => cases h'; rfl
  | step hm _ ih =>
    cases h' with
    | step hm' hp' =>
      obtain ⟨rfl, rfl⟩ := Prod.mk.inj (Option.some.inj (hm.symm.trans hm'))
      exact ih hp'
    | stuck hm' => rw [hm] at hm'; cases hm'
  | stuck hm =>
    cases h' with
    | step hm' => rw [hm] at hm'; cases hm'
    | stuck => rfl
  | call _ _ ihr ihp =>
    cases h' with
    | call hr' hp' =>
      obtain ⟨rfl, rfl⟩ := Outcome.read.inj (ihr hr')
      exact ihp hp'
    | callStuck hr' => cases ihr hr'
  | callStuck _ ihr =>
    cases h' with
    | call hr' => cases ihr hr'
    | callStuck hr' => exact ihr hr'
  | go _ ih =>
    cases h' with
    | go h' => exact ih h'

/-! ## What a reading looks at -/

/-- A step that meets no error reads some tokens and looks at no other ones. -/
theorem Move.apply_append {m : Move} {n n' : Draft} {w w' : List Kind}
    (h : m.apply n w = some (n', w')) :
    ∃ v, w = v ++ w' ∧ ∀ u, m.apply n (v ++ u) = some (n', u) := by
  cases m with
  | relabel | wrap =>
    obtain ⟨rfl, rfl⟩ := Prod.mk.inj (Option.some.inj h)
    exact ⟨[], rfl, fun _ => rfl⟩
  | take set =>
    cases w with
    | nil => cases h
    | cons k w =>
      simp only [apply] at h
      split at h
      · rename_i hk
        obtain ⟨rfl, rfl⟩ := Prod.mk.inj (Option.some.inj h)
        exact ⟨[k], rfl, fun _ => if_pos hk⟩
      · cases h
  | check floor highest =>
    simp only [apply] at h
    split at h
    · rename_i hf
      obtain ⟨rfl, rfl⟩ := Prod.mk.inj (Option.some.inj h)
      exact ⟨[], rfl, fun _ => if_pos hf⟩
    · cases h
  | fail | sync => cases h

/-- Whether a step meets an error depends on the next token only. -/
theorem Move.apply_eq_none_congr {m : Move} {n : Draft} {w u : List Kind}
    (h : m.apply n w = none) (hu : u.head? = w.head?) : m.apply n u = none := by
  cases m with
  | relabel | wrap => cases h
  | take set =>
    cases w <;> cases u <;> cases hu
    · rfl
    · simp only [apply, ite_eq_right_iff, reduceCtorEq, imp_false] at h ⊢
      exact h
  | check => simpa [apply] using h
  | fail | sync => rfl

theorem next_congr {w u : List Kind} (h : u.head? = w.head?) : next u = next w := by
  cases w <;> cases u <;> cases h <;> rfl

/-- A phase looks at the next token only. -/
theorem Phase.script_congr {w u : List Kind} (h : next u = next w) (q : Phase) :
    q.script u = q.script w := by
  cases q <;> simp only [script, h]

/-- What a reading leaves is the end of what it was given. -/
theorem Reads.suffix (h : Reads p n w o) : o.rest <:+ w := by
  induction h with
  | done | stuck => exact List.suffix_refl _
  | step hm _ ih =>
    obtain ⟨v, rfl, -⟩ := Move.apply_append hm
    exact ih.trans (List.suffix_append v _)
  | call _ _ ihr ihp => exact ihp.trans ihr
  | callStuck _ ih | go _ ih => exact ih

/-- A call leaves no more than the called rule does. -/
theorem Reads.call_suffix {r : Rule} {f : Nat} (h : Reads (.call r f p) n w o) :
    ∃ o', Reads (opening r f w) (.fresh r) w o' ∧ o.rest <:+ o'.rest := by
  cases h with
  | call hr hp => exact ⟨_, hr, hp.suffix⟩
  | callStuck hr => exact ⟨_, hr, List.suffix_refl _⟩

theorem Reads.label_inv {l : Label} (h : Reads (.label l p) n w o) :
    Reads p ⟨l, n.children⟩ w o := by
  cases h with
  | step hm hp => cases hm; exact hp
  | stuck hm => cases hm

theorem Reads.take_inv {set : KindSet} {k : Kind} (h : Reads (.step (.take set) p) n (k :: w) o)
    (hk : set.contains k = true) : Reads p (n.add (.token k)) w o := by
  cases h with
  | step hm hp =>
    rw [Move.apply, if_pos hk] at hm
    cases hm
    exact hp
  | stuck hm =>
    rw [Move.apply, if_pos hk] at hm
    cases hm

/-! ## Names -/

theorem isName_eq {k : Kind} (h : isName k = true) : k = .name ∨ k = .quotedName := by
  simpa [isName, Rule.first, Rule.nameFirst] using h

theorem not_isName_nil : isName (next []) = false := by decide

theorem exists_cons_of_isName (h : isName (next w) = true) :
    ∃ k v, w = k :: v ∧ isName k = true := by
  cases w with
  | nil => rw [not_isName_nil] at h; cases h
  | cons k v => exact ⟨k, v, rfl, h⟩

/-- What stands behind a dot, if there is one. -/
def afterDot : List Kind → List Kind
  | .dot :: w => w
  | w => w

theorem afterDot_suffix (w : List Kind) : afterDot w <:+ w := by
  unfold afterDot
  split
  · exact List.suffix_cons _ _
  · exact List.suffix_refl _

theorem afterDot_of_next_ne (h : next w ≠ .dot) : afterDot w = w := by
  unfold afterDot
  split
  · exact absurd rfl h
  · rfl

/-- Where no dot and name come next, a name has ended. -/
theorem nameTail_of_next_ne (h : next w ≠ .dot) : nameTail w = w := by
  unfold nameTail
  split
  · exact absurd rfl h
  · rfl

theorem nameTail_dot (h : isName (next w) = false) : nameTail (.dot :: w) = .dot :: w := by
  cases w with
  | nil => rfl
  | cons k w => rw [nameTail, if_neg (by simpa using h)]

theorem Reads.identifier_suffix {f : Nat} (h : Reads (opening .identifier f w) n w o)
    (hw : isName (next w) = true) : o = .read (n.add (.token (next w))) w.tail := by
  obtain ⟨k, v, rfl, hk⟩ := exists_cons_of_isName hw
  cases h.take_inv hk
  rfl

/-- The parts of a name are read as long as there are any; a dot behind the last part is read
too. -/
theorem Reads.parts_suffix (h : Reads (.go (.more .parts)) n w o) :
    o.rest <:+ afterDot (nameTail w) := by
  -- On the tokens to come: a dot with a name behind it leaves fewer.
  induction hl : w.length using Nat.strongRecOn generalizing n w with
  | ind m ih =>
    cases h with
    | go h =>
      rw [Phase.script] at h
      split at h
      · rename_i hdot
        cases w with
        | nil => cases hdot
        | cons k w =>
          obtain rfl : k = .dot := hdot
          have h := h.take_inv (by simp [Series.separator])
          cases hname : isName (next w) with
          | false =>
            rw [nameTail_dot hname]
            exact h.suffix
          | true =>
            obtain ⟨k, v, rfl, hk⟩ := exists_cons_of_isName hname
            rw [nameTail, if_pos hk]
            cases h with
            | call hr hp =>
              cases hr.identifier_suffix hname
              exact ih v.length (by subst hl; simp only [List.length_cons]; omega) hp rfl
            | callStuck hr => cases hr.identifier_suffix hname
      · rename_i hdot
        rw [nameTail_of_next_ne hdot, afterDot_of_next_ne hdot]
        exact h.suffix

theorem Reads.qualifiedName_suffix {f : Nat} (h : Reads (opening .qualifiedName f w) n w o)
    (hw : isName (next w) = true) : o.rest <:+ afterDot (nameTail w.tail) := by
  cases h with
  | call hr hp =>
    cases hr.identifier_suffix hw
    exact hp.parts_suffix
  | callStuck hr => cases hr.identifier_suffix hw

theorem Reads.primary_suffix {f : Nat} (h : Reads (opening .primaryExpression f w) n w o)
    (hw : isName (next w) = true) : o.rest <:+ afterDot (nameTail w.tail) := by
  have hconst : Rule.constant.first.contains (next w) = false := by
    rcases isName_eq hw with hk | hk <;> rw [hk] <;> decide
  have hparen : next w ≠ .leftParen := by
    rcases isName_eq hw with hk | hk <;> rw [hk] <;> decide
  simp only [opening, primaryForm?, hconst, hparen, hw, Bool.false_eq_true, if_false, if_true] at h
  by_cases hcall : next w.tail = .leftParen
  · rw [if_pos hcall] at h
    have hdot : next w.tail ≠ .dot := by rw [hcall]; decide
    rw [nameTail_of_next_ne hdot, afterDot_of_next_ne hdot]
    obtain ⟨o', hr, ho⟩ := h.label_inv.call_suffix
    rwa [hr.identifier_suffix hw] at ho
  · rw [if_neg hcall] at h
    obtain ⟨o', hr, ho⟩ := h.label_inv.call_suffix
    exact ho.trans (hr.qualifiedName_suffix hw)

theorem Reads.operator_suffix (h : Reads (opening .operatorExpression 0 w) n w o)
    (hw : isName (next w) = true) : o.rest <:+ afterDot (nameTail w.tail) := by
  have hfirst : Rule.primaryExpression.first.contains (next w) = true := by
    rcases isName_eq hw with hk | hk <;> rw [hk] <;> decide
  have hplus : next w ≠ .plus := by rcases isName_eq hw with hk | hk <;> rw [hk] <;> decide
  have hminus : next w ≠ .minus := by rcases isName_eq hw with hk | hk <;> rw [hk] <;> decide
  simp only [opening, uncheckedOperator, hfirst, hplus, hminus, decide_false, Bool.or_self,
    Bool.false_eq_true, if_false, if_true] at h
  cases h with
  | step hm hp =>
    cases hm
    obtain ⟨o', hr, ho⟩ := hp.label_inv.call_suffix
    exact ho.trans (hr.primary_suffix hw)
  | stuck hm => cases hm

/-- **An expression that starts with a name reads the whole name.** -/
theorem Reads.boolean_suffix (h : Reads (opening .booleanExpression 0 w) n w o)
    (hw : isName (next w) = true) : o.rest <:+ afterDot (nameTail w.tail) := by
  have hfirst : Rule.valueExpression.first.contains (next w) = true := by
    rcases isName_eq hw with hk | hk <;> rw [hk] <;> decide
  have hnot : next w ≠ .notWord := by rcases isName_eq hw with hk | hk <;> rw [hk] <;> decide
  simp only [opening, unchecked, hfirst, hnot, if_false, if_true] at h
  cases h with
  | step hm hp =>
    cases hm
    obtain ⟨o', hr, ho⟩ := hp.label_inv.call_suffix
    obtain ⟨o'', hr', ho'⟩ := hr.call_suffix
    exact ho.trans (ho'.trans (hr'.operator_suffix hw))
  | stuck hm => cases hm

/-! ## Looking ahead only as far as one reads -/

theorem nameTail_suffix (w : List Kind) : nameTail w <:+ w := by
  fun_induction nameTail w with
  | case1 k w _ ih => exact ih.trans ((List.suffix_cons k w).trans (List.suffix_cons _ _))
  | case2 => exact List.suffix_refl _
  | case3 => exact List.suffix_refl _

theorem afterDot_nameTail_suffix (w : List Kind) : afterDot (nameTail (.dot :: w)) <:+ w := by
  cases hname : isName (next w) with
  | false =>
    rw [nameTail_dot hname]
    exact List.suffix_refl w
  | true =>
    obtain ⟨k, v, rfl, hk⟩ := exists_cons_of_isName hname
    rw [nameTail, if_pos hk]
    exact (afterDot_suffix _).trans ((nameTail_suffix v).trans (List.suffix_cons k v))

theorem exists_cons_of_suffix {k : Kind} {x v rest : List Kind} (h : x ++ rest = k :: v)
    (hr : rest <:+ v) : ∃ y, x = k :: y ∧ v = y ++ rest := by
  cases x with
  | nil =>
    have := hr.length_le
    rw [show rest = k :: v from h, List.length_cons] at this
    omega
  | cons k' y =>
    obtain ⟨rfl, rfl⟩ := List.cons.inj h
    exact ⟨y, rfl, rfl⟩

theorem head?_append_congr {rest rest' : List Kind} (hr : rest'.head? = rest.head?)
    (x : List Kind) : (x ++ rest').head? = (x ++ rest).head? := by
  rw [List.head?_append, List.head?_append, hr]

theorem next_append_congr {rest rest' : List Kind} (hr : rest'.head? = rest.head?)
    (x : List Kind) : next (x ++ rest') = next (x ++ rest) :=
  next_congr (head?_append_congr hr x)

/-- Who reads up to the end of a name, and the dot if one stands there, and looks at one token more
sees what the name is followed by. -/
theorem next_nameTail_congr {x rest rest' : List Kind}
    (hx : rest <:+ afterDot (nameTail (x ++ rest))) (hr : rest'.head? = rest.head?) :
    next (nameTail (x ++ rest')) = next (nameTail (x ++ rest)) := by
  induction hl : x.length using Nat.strongRecOn generalizing x with
  | ind m ih =>
    by_cases hdot : next (x ++ rest) = .dot
    · obtain ⟨v, hv⟩ := exists_cons_of_next hdot (by decide)
      rw [hv] at hx
      obtain ⟨y, rfl, rfl⟩ := exists_cons_of_suffix hv (hx.trans (afterDot_nameTail_suffix v))
      rw [List.cons_append, List.cons_append]
      cases hname : isName (next (y ++ rest)) with
      | false => rw [nameTail_dot hname, nameTail_dot (by rwa [next_append_congr hr])]; rfl
      | true =>
        obtain ⟨k, u, hu, hk⟩ := exists_cons_of_isName hname
        rw [hu, nameTail, if_pos hk] at hx
        obtain ⟨z, rfl, rfl⟩ :=
          exists_cons_of_suffix hu (hx.trans ((afterDot_suffix _).trans (nameTail_suffix u)))
        rw [List.cons_append, List.cons_append, nameTail, nameTail, if_pos hk, if_pos hk]
        exact ih z.length (by subst hl; simp only [List.length_cons]; omega) hx rfl
    · rw [nameTail_of_next_ne hdot, nameTail_of_next_ne (by rwa [next_append_congr hr]),
        next_append_congr hr]

/-- All rules but three look at the next token only. -/
theorem opening_congr {r : Rule} {u : List Kind} (h : next u = next w) (f : Nat)
    (hr : r ∉ [Rule.primaryExpression, .field, .projectClause]) :
    opening r f u = opening r f w := by
  cases r <;> first
    | exact absurd (by decide) hr
    | simp only [opening, unchecked, uncheckedOperator, choice, h]

theorem Reads.field_suffix {f : Nat} (h : Reads (opening .field f w) n w o)
    (hw : isName (next w) = true) : o.rest <:+ afterDot (nameTail w.tail) := by
  have hfirst : Rule.field.first.contains (next w) = true := by
    rcases isName_eq hw with hk | hk <;> rw [hk] <;> decide
  simp only [opening, fieldForm?, hfirst, hw, Bool.not_true, Bool.false_eq_true, if_false,
    Bool.true_and] at h
  split at h
  · obtain ⟨o', hr, ho⟩ := h.call_suffix
    exact ho.trans (hr.boolean_suffix hw)
  · obtain ⟨o', hr, ho⟩ := h.call_suffix
    exact ho.trans (hr.qualifiedName_suffix hw)
  · rename_i hform
    split at hform <;> cases hform

theorem Reads.clause_suffix {f : Nat} (h : Reads (opening .projectClause f w) n w o)
    (hw : Rule.projectClause.first.contains (next w) = true) : o.rest <:+ w.tail := by
  have source {f : Nat} {n : Draft} {o : Outcome}
      (h : Reads (opening .sourceIdentifier f w) n w o) : o.rest <:+ w.tail := by
    cases w with
    | nil => exact absurd hw (by decide)
    | cons k v => exact (h.take_inv hw).suffix
  simp only [opening, clauseForm?, hw, Bool.not_true, Bool.false_eq_true, if_false] at h
  split at h
  · obtain ⟨o', hr, ho⟩ := h.call_suffix
    exact ho.trans (source hr)
  · obtain ⟨o', hr, ho⟩ := h.call_suffix
    exact ho.trans (source hr)
  · rename_i hform
    split at hform <;> cases hform

/-- The alternative of a rule is chosen by tokens that it reads and by the one behind them. -/
theorem Reads.opening_eq {r : Rule} {f : Nat} {v rest rest' : List Kind}
    (h : Reads (opening r f (v ++ rest)) n (v ++ rest) o) (ho : o.rest = rest)
    (hr : rest'.head? = rest.head?) : opening r f (v ++ rest') = opening r f (v ++ rest) := by
  subst ho
  have hnext := next_append_congr hr v
  -- The token behind the next one, when the next one is read.
  have hsecond (hs : o.rest <:+ (v ++ o.rest).tail) (hne : v ++ o.rest ≠ []) :
      next (v ++ rest').tail = next (v ++ o.rest).tail := by
    obtain ⟨k, u, hu⟩ := List.exists_cons_of_ne_nil hne
    rw [hu] at hs
    obtain ⟨y, rfl, rfl⟩ := exists_cons_of_suffix hu hs
    exact next_append_congr hr y
  by_cases hrule : r ∈ [Rule.primaryExpression, .field, .projectClause]
  · simp only [List.mem_cons, List.not_mem_nil, or_false] at hrule
    rcases hrule with rfl | rfl | rfl
    · have hform : primaryForm? (v ++ rest') = primaryForm? (v ++ o.rest) := by
        unfold primaryForm?
        rw [hnext]
        by_cases hname : isName (next (v ++ o.rest)) = true
        · obtain ⟨k, u, hu, -⟩ := exists_cons_of_isName hname
          rw [hsecond ((h.primary_suffix hname).trans
            ((afterDot_suffix _).trans (nameTail_suffix _))) (by rw [hu]; exact List.cons_ne_nil k u)]
        · simp only [hname, Bool.false_eq_true, if_false]
      simp only [opening, hform]
    · have hform : fieldForm? (v ++ rest') = fieldForm? (v ++ o.rest) := by
        unfold fieldForm?
        rw [hnext]
        by_cases hname : isName (next (v ++ o.rest)) = true
        · have hs := h.field_suffix hname
          obtain ⟨k, u, hu, -⟩ := exists_cons_of_isName hname
          rw [hu, List.tail_cons] at hs
          obtain ⟨y, rfl, rfl⟩ := exists_cons_of_suffix hu
            (hs.trans ((afterDot_suffix _).trans (nameTail_suffix u)))
          rw [List.cons_append, List.cons_append, List.tail_cons, List.tail_cons,
            next_nameTail_congr hs hr]
        · simp only [hname, Bool.false_eq_true, Bool.false_and, if_false]
      simp only [opening, hform]
    · have hform : clauseForm? (v ++ rest') = clauseForm? (v ++ o.rest) := by
        unfold clauseForm?
        rw [hnext]
        by_cases hfirst : Rule.projectClause.first.contains (next (v ++ o.rest)) = true
        · rw [hsecond (h.clause_suffix hfirst) (by rintro hnil; rw [hnil] at hfirst; cases hfirst)]
        · simp only [hfirst, Bool.not_false, if_true]
      simp only [opening, hform]
  · exact opening_congr hnext f hrule

/-- **A reading depends on the tokens read and on the one behind them only.** -/
theorem Reads.extend (h : Reads p n w o) :
    ∃ v, w = v ++ o.rest ∧
      ∀ rest', rest'.head? = o.rest.head? → Reads p n (v ++ rest') (o.before rest') := by
  -- The script that a rule opens looks at the token behind what it reads, which is why that one has
  -- to stay.
  induction h with
  | done => exact ⟨[], rfl, fun rest' _ => .done⟩
  | step hm _ ih =>
    obtain ⟨v₁, rfl, hv₁⟩ := Move.apply_append hm
    obtain ⟨v₂, rfl, hv₂⟩ := ih
    refine ⟨v₁ ++ v₂, (List.append_assoc ..).symm, fun rest' hr => ?_⟩
    rw [List.append_assoc]
    exact .step (hv₁ _) (hv₂ rest' hr)
  | stuck hm => exact ⟨[], rfl, fun rest' hr => .stuck (Move.apply_eq_none_congr hm hr)⟩
  | call hr hp ihr ihp =>
    obtain ⟨v₁, rfl, hv₁⟩ := ihr
    obtain ⟨v₂, h₂, hv₂⟩ := ihp
    subst h₂
    refine ⟨v₁ ++ v₂, (List.append_assoc ..).symm, fun rest' hrest => ?_⟩
    rw [List.append_assoc]
    refine .call ?_ (hv₂ rest' hrest)
    rw [hr.opening_eq rfl (head?_append_congr hrest v₂)]
    exact hv₁ _ (head?_append_congr hrest v₂)
  | callStuck hr ih =>
    obtain ⟨v, rfl, hv⟩ := ih
    refine ⟨v, rfl, fun rest' hrest => .callStuck ?_⟩
    rw [hr.opening_eq rfl hrest]
    exact hv rest' hrest
  | go _ ih =>
    obtain ⟨v, rfl, hv⟩ := ih
    refine ⟨v, rfl, fun rest' hrest => .go ?_⟩
    rw [Phase.script_congr (next_append_congr hrest v)]
    exact hv rest' hrest

end PipeQuery.Parser

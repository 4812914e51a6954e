import PipeQuery.Proofs.Grammar.Nesting
import PipeQuery.Proofs.Parser.Limit
import PipeQuery.Proofs.Parser.ValidTrees

/-!
# Open rules and the nesting of a text

The rules are layered: a rule opens rules of lower layers only, unless a bracket is opened first or
a prefix operator stands before its operand. The loops of a rule wrap its node instead of opening
another rule below it. So how many rules are open at once is bounded by how deep the text is nested,
however long it is.

## Main definitions

* `Rule.layers`, `Phase.layers`: the number of rules open below a rule, where nothing is nested
* `Script.Layered`: a script that opens no more rules than its layers allow
* `Room`: the rules that may be open suffice for what is read
* `nestingLimit`: a limit on open rules, by the nesting of a text

## Main results

* `opening_layered`, `Phase.script_layered`: every script keeps to its layers
* `Room.of_call`: a call that is read has room for its rule, and leaves room behind it
* `Executes.nested`: what is read is carried out with as many open rules as the text is nested
* `parse_nesting`: a valid tree is found with any limit that the nesting of its text asks for
-/

namespace PipeQuery

open Token (Kind KindSet)

/-- The number of rules that are open below a rule over a floor, at most, where no bracket is opened
and no prefix operator stands. -/
def Rule.layers : Rule → Nat → Nat
  | singleStatement, _ => 15
  | query, _ => 14
  | sourceCommand, _ | processingCommand, _ => 13
  | rowCommand, _ | evalCommand, _ | statsCommand, _ | explainCommand, _ => 12
  | fields, _ | sortCommand, _ | subqueryExpression, _ => 11
  | whereCommand, _ | field, _ | orderExpression, _ => 10
  -- A level of operators is a layer, and the lowest floors stand for the same level.
  | booleanExpression, floor => 10 - max 1 (min floor 3)
  | valueExpression, _ => 6
  | operatorExpression, floor => 6 - max 1 (min floor 3)
  | primaryExpression, _ | qualifiedNames, _ | projectCommand, _ => 2
  | constant, _ | qualifiedName, _ | projectClause, _ | fromCommand, _ => 1
  | limitCommand, _ | sourceIdentifier, _ | identifier, _ | booleanValue, _ | number, _ => 0
  | string, _ | comparisonOperator, _ => 0

/-- The right operand of an operator has fewer layers than the expression. -/
theorem Climb.layers_lt {c : Climb} {k : Kind} {p floor : Nat} (h : c.precedence k = some p)
    (hf : floor ≤ p) : c.rule.layers (p + 1) < c.rule.layers floor := by
  have hp : p = 1 ∨ p = 2 := by cases c <;> cases k <;> cases h <;> decide
  cases c <;> simp only [Climb.rule, Rule.layers] <;> omega

/-- The number of rules that a token allows to be opened behind it. -/
def Token.Kind.allowance : Kind → Nat
  | leftParen => 8
  | leftBracket => 4
  | _ => 0

namespace Parser

/-- The number of rules that are open where a phase begins, at most, where nothing is nested. -/
def Phase.layers : Phase → Nat
  | more s => s.item.layers 0 + 1
  | operators c floor => c.rule.layers floor
  | stages _ => 14
  | comparison => 6
  | grouping => 3
  | direction | nulls => 0
  | arguments => 10

/-- A script that opens no more than `b` rules, one below the other, and as many more as the tokens
that it has matched allow, and one for a prefix operator. Its node is `signed` if it stands for a
prefix operator. -/
def Script.Layered : Script → Bool → Nat → Prop
  | done, _, _ => True
  | step (.relabel l) p, signed, b =>
    signed = false ∧ p.Layered l.isSigned (if l.isSigned then b + 1 else b)
  | step (.wrap l) p, _, b => l.isSigned = false ∧ p.Layered false b
  | step (.take set) p, signed, b =>
    set.contains .endOfInput = false ∧
      -- Behind a bracket that is closed nothing is opened.
      ∀ k, set.contains k = true →
        p = done ∨ k ≠ .rightParen ∧ k ≠ .rightBracket ∧ p.Layered signed (b + k.allowance)
  | step _ p, signed, b => p.Layered signed b
  | call r floor p, signed, b =>
    r ≠ .singleStatement ∧ r.layers floor < b ∧ p.Layered signed b
  | go q, signed, b => (q = .comparison → signed = false) ∧ q.layers ≤ b

open Script

variable {p : Script} {r : Rule} {k : Kind} {set : KindSet} {signed : Bool} {b d f i j : Nat}
  {v v₁ w w' w₁ : List Kind} {m : Move} {n n' n₁ : Draft}

/-! ## The scripts of the rules -/

theorem layered_last (hset : set.contains .endOfInput = false := by decide) :
    (step (.take set) done).Layered signed b :=
  ⟨hset, fun _ _ => .inl rfl⟩

theorem layered_token (hp : p.Layered signed (b + k.allowance))
    (hk : k ≠ .endOfInput ∧ k ≠ .rightParen ∧ k ≠ .rightBracket := by decide) :
    (token k p).Layered signed b := by
  refine ⟨by simpa using hk.1.symm, fun k' hk' => .inr ?_⟩
  obtain rfl : k' = k := by simpa using hk'
  exact ⟨hk.2.1, hk.2.2, hp⟩

theorem layered_only (hr : r.layers 0 < b) (hne : r ≠ .singleStatement := by decide) :
    (only r).Layered signed b :=
  ⟨hne, hr, trivial⟩

theorem layered_go {q : Phase} (hq : q.layers ≤ b) (hc : q ≠ .comparison := by decide) :
    (go q).Layered signed b :=
  ⟨fun h => absurd h hc, hq⟩

/-- **Every phase keeps to its layers.** -/
theorem Phase.script_layered {q : Phase} (hs : q = .comparison → signed = false)
    (hb : q.layers ≤ b) : (q.script w).Layered signed b := by
  cases q with
  | more s =>
    rw [script]
    split
    · refine layered_token ⟨s.item_ne, ?_, fun h => (by cases h), ?_⟩ ?_
      · exact Nat.lt_of_lt_of_le (Nat.lt_succ_self _) (Nat.le_trans hb (Nat.le_add_right _ _))
      · exact Nat.le_trans hb (Nat.le_add_right _ _)
      · cases s <;> decide
    · cases s with
      | arguments => exact layered_last
      | _ => trivial
  | operators c floor =>
    simp only [script]
    split
    · trivial
    · rename_i p hp
      split
      · trivial
      · rename_i hlt
        -- No operator is a bracket.
        have hplain : ∀ c : Climb, ∀ k p, c.precedence k = some p →
            k ≠ .endOfInput ∧ k ≠ .rightParen ∧ k ≠ .rightBracket := by
          intro c k p hk
          cases c <;> cases k <;> first | cases hk; done | decide
        have hlayers := Climb.layers_lt hp (Nat.le_of_not_lt hlt)
        have hb : c.rule.layers floor ≤ b := hb
        refine ⟨by cases c <;> rfl, layered_token ⟨?_, ?_, fun h => (by cases h), ?_⟩ ?_⟩
        · cases c <;> decide
        · omega
        · exact Nat.le_trans hb (Nat.le_add_right _ _)
        · exact hplain c _ p hp
  | stages floor =>
    simp only [script]
    split
    · -- The next stage is opened beside the query before the pipe, which is wrapped.
      refine ⟨rfl, layered_token ⟨by decide, Nat.lt_of_succ_le hb, ?_⟩⟩
      exact ⟨fun h => (by cases h), hb⟩
    · split
      · trivial
      · exact ⟨fun h => (by cases h), hb⟩
  | comparison =>
    rw [script]
    obtain rfl := hs rfl
    split
    · exact ⟨rfl, by decide, Nat.lt_of_lt_of_le (by decide) hb,
        layered_only (Nat.lt_of_lt_of_le (by decide) hb)⟩
    · exact ⟨rfl, trivial⟩
  | grouping =>
    rw [script]
    split
    · exact layered_token (layered_only (Nat.lt_of_lt_of_le (by decide) hb))
    · trivial
  | direction =>
    rw [script]
    split
    · rename_i hk
      refine layered_token (layered_go (Nat.zero_le _)) ?_
      simp only [Bool.or_eq_true, decide_eq_true_eq] at hk
      rcases hk with hk | hk <;> rw [hk] <;> decide
    · exact layered_go (Nat.zero_le _)
  | nulls =>
    rw [script]
    split
    · exact layered_token layered_last
    · trivial
  | arguments =>
    rw [script]
    split
    · exact ⟨by decide, Nat.lt_of_lt_of_le (by decide) hb, layered_go hb⟩
    · exact layered_last

theorem choice_layered {first : Kind → Option Rule} {expected : KindSet}
    (h : ∀ k r, first k = some r → r ≠ .singleStatement ∧ r.layers 0 < b) :
    (choice first expected w).Layered signed b := by
  rw [choice]
  split
  · rename_i r hr
    exact ⟨(h _ r hr).1, (h _ r hr).2, trivial⟩
  · trivial

theorem boolean_layered (f : Nat) (w : List Kind) :
    (opening .booleanExpression f w).Layered false (Rule.booleanExpression.layers f) := by
  have hb : 7 ≤ Rule.booleanExpression.layers f := by simp only [Rule.layers]; omega
  show Layered (ite _ _ _) _ _
  split
  · -- The prefix operator pays for the expression that it opens below its own.
    refine ⟨rfl, layered_token ⟨by decide, ?_, layered_go (Nat.le_add_right _ _) (by nofun)⟩⟩
    exact Nat.lt_succ_of_le hb
  · split
    · exact ⟨rfl, by decide, hb, layered_go (Nat.le_refl _) (by nofun)⟩
    · trivial

theorem operator_layered (f : Nat) (w : List Kind) :
    (opening .operatorExpression f w).Layered false (Rule.operatorExpression.layers f) := by
  have hb : 3 ≤ Rule.operatorExpression.layers f := by simp only [Rule.layers]; omega
  show Layered (ite _ _ _) _ _
  split
  · rename_i hk
    simp only [Bool.or_eq_true, decide_eq_true_eq] at hk
    refine ⟨rfl, layered_token ⟨by decide, ?_, ?_⟩ ?_⟩
    · exact Nat.lt_of_lt_of_le (Nat.lt_succ_of_le hb) (Nat.le_add_right _ _)
    · exact layered_go (Nat.le_trans (Nat.le_add_right _ 1) (Nat.le_add_right _ _)) (by nofun)
    · rcases hk with hk | hk <;> rw [hk] <;> decide
  · split
    · exact ⟨rfl, by decide, hb, layered_go (Nat.le_refl _) (by nofun)⟩
    · trivial

/-- The rules that are called over the lowest floor only. -/
theorem opening_layered_zero (hr : r ≠ .singleStatement) (hbool : r ≠ .booleanExpression)
    (hop : r ≠ .operatorExpression) (f : Nat) (w : List Kind) :
    (opening r f w).Layered false (r.layers 0) := by
  cases r with
  | singleStatement => exact absurd rfl hr
  | booleanExpression => exact absurd rfl hbool
  | operatorExpression => exact absurd rfl hop
  | query => exact ⟨rfl, by decide, by decide, layered_go (Nat.le_refl 14) (by nofun)⟩
  | sourceCommand =>
    refine choice_layered fun k r hr => ?_
    unfold sourceCommandOf at hr
    split at hr <;> cases hr <;> decide
  | processingCommand =>
    refine choice_layered fun k r hr => ?_
    unfold processingCommandOf at hr
    split at hr <;> cases hr <;> decide
  | primaryExpression =>
    simp only [opening]
    split
    · exact ⟨rfl, layered_only (by decide)⟩
    · exact ⟨rfl, layered_only (by decide)⟩
    · exact ⟨rfl, layered_token ⟨by decide, by decide, layered_last⟩⟩
    · exact ⟨rfl, by decide, by decide, layered_token (layered_go (by decide))⟩
    · trivial
  | field | projectClause =>
    simp only [opening]
    split
    · exact layered_only (by decide)
    · exact ⟨by decide, by decide, layered_token (layered_only (by decide))⟩
    · trivial
  | constant | number =>
    simp only [opening]
    split <;> first | trivial | exact ⟨rfl, layered_last⟩
  | valueExpression => exact ⟨by decide, by decide, fun _ => rfl, by decide⟩
  | sourceIdentifier | identifier | booleanValue | comparisonOperator | string =>
    exact layered_last
  | limitCommand => exact layered_token layered_last
  | whereCommand | rowCommand | evalCommand | explainCommand =>
    exact layered_token (layered_only (by decide))
  | statsCommand | fromCommand | sortCommand | projectCommand =>
    exact layered_token ⟨by decide, by decide, layered_go (by decide)⟩
  | fields | qualifiedName | qualifiedNames | orderExpression =>
    exact ⟨by decide, by decide, layered_go (by decide)⟩
  | subqueryExpression => exact layered_token ⟨by decide, by decide, layered_last⟩

theorem isSigned_ofRule (r : Rule) : (Label.ofRule r).isSigned = false := by cases r <;> rfl

/-- **Every rule keeps to its layers.** -/
theorem opening_layered (hr : r ≠ .singleStatement) (f : Nat) (w : List Kind) :
    (opening r f w).Layered (Label.ofRule r).isSigned (r.layers f) := by
  rw [isSigned_ofRule]
  by_cases hbool : r = .booleanExpression
  · subst hbool
    exact boolean_layered f w
  by_cases hop : r = .operatorExpression
  · subst hop
    exact operator_layered f w
  -- No other rule has layers that depend on its floor.
  have hfloor : r.layers f = r.layers 0 := by
    cases r <;> first | rfl | exact absurd rfl hbool | exact absurd rfl hop
  rw [hfloor]
  exact opening_layered_zero hr hbool hop f w

/-! ## Prefix operators of drafts -/

namespace Draft

/-- The number of prefix operators in a node under construction. -/
def signCount (n : Draft) : Nat := n.shape.signCount

theorem signCount_eq (n : Draft) :
    n.signCount = (if n.label.isSigned then 1 else 0) + Shape.signCounts n.children := rfl

theorem signCount_add (n : Draft) (t : Shape) :
    (n.add t).signCount = n.signCount + t.signCount := by
  rw [signCount_eq, add, Shape.signCounts_append, signCount_eq, Nat.add_assoc]
  rfl

theorem signCount_add_token (n : Draft) (k : Kind) : (n.add (.token k)).signCount = n.signCount :=
  signCount_add n _

theorem signCount_fresh (r : Rule) : (fresh r).signCount = 0 := by cases r <;> rfl

end Draft

/-! ## The rules that nested tokens open -/

/-- A script that opens `b` rules has room for the rules that are opened up to the draft `n'` while
the tokens `v` are read behind `i` and `j` open brackets, if `d` more rules may be open. -/
def Room (d b i j : Nat) (v : List Kind) (n n' : Draft) : Prop :=
  b + 8 * Bracket.round.nesting i v + 4 * Bracket.square.nesting j v + n'.signCount ≤
    d + 8 * i + 4 * j + n.signCount

/-- Behind a token that closes no bracket there is as much room as it allows. -/
theorem Room.token (h : Room d b i j (k :: v) n n') (hround : k ≠ .rightParen)
    (hsquare : k ≠ .rightBracket) :
    ∃ i j, Room d (b + k.allowance) i j v (n.add (.token k)) n' := by
  have hle := Bracket.round.le_nesting (i + 1) v
  have hle' := Bracket.square.le_nesting (j + 1) v
  -- An opening bracket takes from the nesting that is left what it adds to the room.
  by_cases hl : k = .leftParen
  · subst hl
    refine ⟨i + 1, j, ?_⟩
    rw [Room, Bracket.nesting, Bracket.nesting] at h
    rw [Room, n.signCount_add_token, Kind.allowance]
    simp only [Bracket.behind, Bracket.left, Bracket.right, reduceCtorEq, if_true, if_false] at h
    omega
  by_cases hl' : k = .leftBracket
  · subst hl'
    refine ⟨i, j + 1, ?_⟩
    rw [Room, Bracket.nesting, Bracket.nesting] at h
    rw [Room, n.signCount_add_token, Kind.allowance]
    simp only [Bracket.behind, Bracket.left, Bracket.right, reduceCtorEq, if_true, if_false] at h
    omega
  refine ⟨i, j, ?_⟩
  have hallow : k.allowance = 0 := by
    cases k <;> first | rfl | exact absurd rfl hl | exact absurd rfl hl'
  rw [Room, Bracket.nesting, Bracket.nesting, Bracket.behind_of_ne hl hround,
    Bracket.behind_of_ne hl' hsquare] at h
  rw [Room, n.signCount_add_token, hallow]
  omega

/-- **A step of a layered script** keeps the prefix operators of its node, and leaves a layered
script, which has room if the whole script had it. -/
theorem Script.Layered.of_apply (h : (step m p).Layered n.label.isSigned b)
    (ha : m.apply n w = some (n₁, w₁)) :
    n.signCount ≤ n₁.signCount ∧ (p = done ∨ ∃ c, p.Layered n₁.label.isSigned c ∧
      ∀ {d i j v v₁ w' n'}, w = v ++ w' → w₁ = v₁ ++ w' → Room d b i j v n n' →
        ∃ i j, Room d c i j v₁ n₁ n') := by
  cases m with
  | relabel l =>
    -- A node that becomes one of a prefix operator counts one more, and may open one rule more.
    obtain ⟨hs, hp⟩ := h
    cases ha
    have hcount := n.signCount_eq
    rw [hs] at hcount
    refine ⟨?_, .inr ⟨_, hp, fun {d i j v v₁ w' n'} hv hv₁ hroom => ⟨i, j, ?_⟩⟩⟩
    · rw [hcount]
      exact Nat.add_le_add_right (Nat.zero_le _) _
    · obtain rfl := List.append_cancel_right (hv.symm.trans hv₁)
      rw [Room, hcount] at hroom
      rw [Room, Draft.signCount_eq ⟨l, _⟩]
      dsimp only at hroom ⊢
      split <;> simp only [Bool.false_eq_true, if_false] at hroom <;> omega
  | wrap l =>
    obtain ⟨hl, hp⟩ := h
    cases ha
    have hcount : Draft.signCount ⟨l, [n.shape]⟩ = n.signCount := by
      rw [Draft.signCount_eq, hl]
      exact Nat.zero_add _
    refine ⟨Nat.le_of_eq hcount.symm, .inr ⟨b, by rwa [hl], ?_⟩⟩
    intro d i j v v₁ w' n' hv hv₁ hroom
    obtain rfl := List.append_cancel_right (hv.symm.trans hv₁)
    exact ⟨i, j, by rwa [Room, hcount]⟩
  | take set =>
    cases w with
    | nil => cases ha
    | cons k w =>
      rw [Move.apply] at ha
      split at ha
      · rename_i hk
        cases ha
        refine ⟨Nat.le_of_eq (n.signCount_add_token k).symm, ?_⟩
        rcases h.2 k hk with rfl | ⟨hround, hsquare, hp⟩
        · exact .inl rfl
        · refine .inr ⟨_, hp, ?_⟩
          intro d i j v v₁ w' n' hv hv₁ hroom
          rw [hv₁, ← List.cons_append] at hv
          obtain rfl := List.append_cancel_right hv
          exact hroom.token hround hsquare
      · cases ha
  | check floor highest =>
    rw [Move.apply] at ha
    split at ha
    · cases ha
      refine ⟨Nat.le_refl _, .inr ⟨b, h, ?_⟩⟩
      intro d i j v v₁ w' n' hv hv₁ hroom
      obtain rfl := List.append_cancel_right (hv.symm.trans hv₁)
      exact ⟨i, j, hroom⟩
    · cases ha
  | fail | sync => cases ha

/-- What is read of a layered script keeps the prefix operators of its node. -/
theorem Reads.signCount_le {o : Outcome} (h : Reads p n w o) (hp : p.Layered n.label.isSigned b)
    (ho : o = .read n' w') : n.signCount ≤ n'.signCount := by
  induction h generalizing b with
  | done =>
    cases ho
    exact Nat.le_refl _
  | step ha hq ih =>
    obtain ⟨hle, rfl | ⟨c, hc, -⟩⟩ := hp.of_apply ha
    · cases hq
      cases ho
      exact hle
    · exact Nat.le_trans hle (ih hc ho)
  | stuck | callStuck => cases ho
  | call _ _ _ ih =>
    refine Nat.le_trans ?_ (ih hp.2.2 ho)
    rw [Draft.signCount_add]
    exact Nat.le_add_right _ _
  | @go q n w o _ ih => exact ih (Phase.script_layered hp.1 hp.2) ho

/-- **A call that is read** has room for its rule, and leaves room for the rest of the script. -/
theorem Room.of_call {q : Script} (h : Room d b i j v n n') (hne : r ≠ .singleStatement)
    (hp : (call r f q).Layered n.label.isSigned b) (hw : w = v ++ w')
    (hr : Reads (opening r f w) (.fresh r) w (.read n₁ w₁))
    (hq : Reads q (n.add n₁.shape) w₁ (.read n' w')) :
    ∃ v₁ v₂, w = v₁ ++ w₁ ∧ w₁ = v₂ ++ w' ∧ Room (d - 1) (r.layers f) i j v₁ (.fresh r) n₁ ∧
      Room d b i j v₂ (n.add n₁.shape) n' := by
  obtain ⟨v₁, hw₁, hg, -⟩ := hr.groups hne
  obtain ⟨v₂, rfl⟩ := hq.suffix
  obtain rfl : v = v₁ ++ v₂ := by
    rw [hw₁, ← List.append_assoc] at hw
    exact (List.append_cancel_right hw).symm
  refine ⟨v₁, v₂, hw₁, rfl, ?_⟩
  have hlayers : r.layers f < b := hp.2.1
  have hle : (n.add n₁.shape).signCount ≤ n'.signCount := hq.signCount_le hp.2.2 rfl
  have hcount : (n.add n₁.shape).signCount = n.signCount + n₁.signCount := n.signCount_add _
  -- The rule leaves no bracket open, so what stands behind it is as deep as what stands before it.
  rw [Room, Bracket.nesting_append, Bracket.nesting_append, hg.derives.foldl_behind_rule,
    hg.derives.foldl_behind_rule] at h
  rw [Room, Room, Draft.signCount_fresh]
  omega

/-- Where there is room for a call, a rule may be opened. -/
theorem Room.pos (h : Room d b i j v n n') (hb : 0 < b) (hle : n.signCount ≤ n'.signCount) :
    0 < d := by
  have hround := Bracket.round.le_nesting i v
  have hsquare := Bracket.square.le_nesting j v
  rw [Room] at h
  omega

/-- A call that is read comes to an end, where its body does. -/
theorem OnCourse.call_ok {strategy : Strategy} {limit : Nat} {s t : State} {x : Site} {path : Path}
    (h : Executes strategy limit d (opening r f s.coming) (s.enter (.ofRule r) f) (.ok () t))
    (hc : OnCourse s x path)
    (hr : Reads (opening r f s.coming) (.fresh r) s.coming (.read n w)) :
    ∃ y, OnCourse t.leave y path ∧ t.leave.coming = w ∧ y.label = x.label ∧
      t.leave.stream.tokens = s.stream.tokens ∧
      y.draft s.stream.tokens = (x.draft s.stream.tokens).add n.shape := by
  have hy := hc.enter r f
  have hadv : Advances s.stream t.stream := (h.evolves hy.proper).advances
  -- The body that came to its end has been read, and there is one reading of it.
  cases h.simulated hy with
  | @read _ z hz hread =>
    rw [draft_opened] at hread
    obtain ⟨rfl, rfl⟩ := Outcome.read.inj (hread.unique hr)
    refine ⟨_, hz.leave hc.intact, ?_, rfl, ?_, ?_⟩
    · exact coming_leave _
    · rw [stream_leave]
      exact hadv.tokens_eq
    · rw [draft_add, shape_close]
      rfl
  | stuck hread =>
    rw [draft_opened] at hread
    cases hread.unique hr

/-- **What is read is carried out** with as many open rules as the text is nested. -/
theorem Executes.nested {strategy : Strategy} {limit : Nat} {s : State} {res : Result} {x : Site}
    {path : Path} (h : Executes strategy limit d p s res) (hc : OnCourse s x path)
    (hr : Reads p (x.draft s.stream.tokens) s.coming (.read n' w')) (hw : s.coming = v ++ w')
    (hp : p.Layered x.label.isSigned b) (hroom : Room d b i j v (x.draft s.stream.tokens) n') :
    ∃ t, res = .ok () t := by
  -- By induction on the execution, along what is read: each step and each call leaves room.
  induction h generalizing x path b i j v w' n' with
  | @done d s => exact ⟨s, rfl⟩
  | @step d m q s s' res hm hrun hq ih =>
    have htokens := (Move.run_evolves hm strategy hc.proper).advances.tokens_eq
    rw [hrun] at htokens
    cases hr with
    | step ha hr =>
      obtain ⟨y, t, ht, hy, rfl, rfl⟩ := hc.run_some strategy hm ha
      rw [hrun] at ht
      cases ht
      obtain ⟨v₁, hw₁⟩ := hr.suffix
      obtain ⟨-, rfl | ⟨c, hp, hleaves⟩⟩ := hp.of_apply ha
      · cases hq
        exact ⟨_, rfl⟩
      · obtain ⟨i, j, hroom⟩ := hleaves hw hw₁.symm hroom
        rw [← htokens] at hr hroom
        exact ih hy hr hw₁.symm hp hroom
  | @stop d m q s s' a hm hrun =>
    cases hr with
    | step ha =>
      obtain ⟨y, t, ht, -⟩ := hc.run_some strategy hm ha
      rw [hrun] at ht
      cases ht
  | @call d r f q s s' res res' hne hb hclose hq ihb ihq =>
    cases hr with
    | call hr hrq =>
      obtain ⟨v₁, v₂, hw₁, rfl, hbody, hrest⟩ := hroom.of_call hne hp hw hr hrq
      obtain ⟨t, rfl⟩ := ihb (hc.enter r f) hr hw₁ (opening_layered hne f s.coming) hbody
      cases hclose
      obtain ⟨y, hy, hcoming, hlabel, htokens, hdraft⟩ := hc.call_ok hb hr
      rw [← hdraft, ← htokens] at hrest hrq
      rw [← hcoming] at hrq
      exact ihq hy hrq hcoming (hlabel ▸ hp.2.2) hrest
  | @callStop d r f q s s' a res' hne hb hclose ihb =>
    cases hr with
    | call hr hrq =>
      obtain ⟨v₁, v₂, hw₁, -, hbody, -⟩ := hroom.of_call hne hp hw hr hrq
      obtain ⟨t, rfl⟩ := ihb (hc.enter r f) hr hw₁ (opening_layered hne f s.coming) hbody
      cases hclose
  | deep =>
    have hpos := hroom.pos (Nat.zero_lt_of_lt hp.2.1) (hr.signCount_le hp rfl)
    exact absurd hpos (Nat.lt_irrefl 0)
  | @go d q s res _ ih =>
    cases hr with
    | go hr => exact ih hc hr hw (Phase.script_layered hp.1 hp.2) hroom
  | idle hrec =>
    rw [hc.recovering_eq] at hrec
    cases hrec

/-! ## The limit of a nested text -/

variable {strategy : Strategy} {options : Options} {tokens : List Token} {t : ParseTree}

/-- A limit that suffices for a text with this word and this number of prefix operators. -/
def nestingLimit (w : List Kind) (signs : Nat) : Nat :=
  16 + 8 * Bracket.round.nesting 0 w + 4 * Bracket.square.nesting 0 w + signs

theorem statement_nested
    (hr : Reads (.only .query) ⟨.singleStatement, []⟩ (TokenStream.ofList tokens).coming
      (.read n []))
    (hd : nestingLimit (TokenStream.ofList tokens).coming n.signCount ≤ d) :
    ¬ (Result.state (Entry.statement.run ⟨d, strategy⟩ (.start (.ofList tokens)))).Deep := by
  intro hdeep
  change (Result.state (parseRule ⟨d, strategy⟩ d .singleStatement 0 _)).Deep at hdeep
  rw [nestingLimit] at hd
  obtain ⟨d, rfl⟩ := Nat.exists_eq_add_of_le' (show 1 ≤ d by omega)
  rw [parseRule_statement] at hdeep
  have hcall := query_calls ⟨d + 1, strategy⟩ d tokens
  have hroom : Room d 15 0 0 (opened tokens).coming ⟨.singleStatement, []⟩ n := by
    have hzero : Draft.signCount ⟨.singleStatement, []⟩ = 0 := rfl
    have hcoming : (opened tokens).coming = (TokenStream.ofList tokens).coming := rfl
    rw [Room, hzero, hcoming]
    omega
  obtain ⟨u, hu⟩ := (Executes.single_call (by decide) hcall (opened_proper tokens)).nested
    (opened_onCourse tokens) hr (List.append_nil _).symm (layered_only (by decide)) hroom
  have hends := (hcall.ends (opened_going tokens)).1
  rw [hu] at hdeep hends
  exact State.Going.not_deep hends (deep_expectOneOf (deep_closing hdeep))

theorem expression_nested
    (hr : Reads (opening .booleanExpression f (TokenStream.ofList tokens).coming)
      (.fresh .booleanExpression) (TokenStream.ofList tokens).coming (.read n []))
    (hd : nestingLimit (TokenStream.ofList tokens).coming n.signCount ≤ d) :
    ¬ (Result.state ((Entry.expression f).run ⟨d, strategy⟩ (.start (.ofList tokens)))).Deep := by
  intro hdeep
  change (Result.state (standalone ⟨d, strategy⟩ f _)).Deep at hdeep
  rw [standalone_eq] at hdeep
  rw [nestingLimit] at hd
  have hcall := standalone_calls ⟨d, strategy⟩ f tokens
  have hends := (hcall.ends (start_going tokens)).1
  obtain ⟨d, rfl⟩ := Nat.exists_eq_add_of_le' (show 1 ≤ d by omega)
  obtain ⟨res, hb, hres⟩ := hcall
  have hroom : Room d (Rule.booleanExpression.layers f) 0 0 (TokenStream.ofList tokens).coming
      (.fresh .booleanExpression) n := by
    have hlayers : Rule.booleanExpression.layers f ≤ 9 := by simp only [Rule.layers]; omega
    rw [Room, Draft.signCount_fresh]
    omega
  obtain ⟨u, rfl⟩ := hb.nested (openedExpression_onCourse tokens f) hr (List.append_nil _).symm
    (opening_layered (by decide) f _) hroom
  rw [hres] at hdeep hends
  exact State.Going.not_deep hends (deep_trailing hdeep)

/-- **How many rules are open depends on the nesting of a text, not on its length.** A valid tree is
found again with any limit that allows eight open rules for each open parenthesis, four for each
open bracket, one for each prefix operator, and sixteen more. -/
theorem parse_nesting (entry : Entry) (h : entry.parse options tokens = .ok t)
    (hv : t.isValid = true) {d : Nat}
    (hd : nestingLimit ((TokenStream.body tokens).map Token.kind) t.signCount ≤ d) :
    entry.parse ⟨d, options.strategy⟩ tokens = .ok t := by
  have hne : (TokenStream.ofList tokens).isEmpty = false := by
    cases entry <;> exact isEmpty_eq_false_of_run h (by simp)
  rw [← TokenStream.coming_ofList] at hd
  have hshallow : ∀ e, entry.parse ⟨d, options.strategy⟩ tokens ≠ .error (.tooDeep e) := by
    refine fun e he => absurd ((parse_tooDeep_iff entry hne).mp ⟨e, he⟩) ?_
    cases entry with
    | statement =>
      have hverdict := statement_verdict options hne
      rw [show parseTokens options tokens = .ok t from h] at hverdict
      cases hverdict with
      | valid hx _ hr hs =>
        rw [hx.signCount_eq, hs] at hd
        exact statement_nested hr (by rwa [← Draft.signCount, Draft.signCount_add_token] at hd)
      | faulty _ _ hvalid => rw [hvalid t rfl] at hv; cases hv
    | expression floor =>
      have hverdict := expression_verdict options floor hne
      rw [show parseExpressionTokens options floor tokens = .ok t from h] at hverdict
      cases hverdict with
      | valid hx _ hr hs =>
        rw [hx.signCount_eq, hs] at hd
        exact expression_nested hr hd
      | faulty _ _ hvalid => rw [hvalid t rfl] at hv; cases hv
  -- Of the two limits, the higher one does not change what comes of the lower one.
  rcases Nat.le_total d options.maxDepth with hle | hle
  · rw [← parse_deepen entry hle hshallow]
    exact h
  · rw [parse_deepen entry hle fun e he => ?_]
    · exact h
    · rw [show entry.parse ⟨options.maxDepth, options.strategy⟩ tokens = .ok t from h] at he
      cases he

/-- A tree of `f(-a)` comes with any limit from 25 on. -/
theorem parse_nesting_call :
    ∃ t, (∀ d, 25 ≤ d → Entry.parse ⟨d, .recover⟩
      ([Kind.name, .leftParen, .minus, .name, .rightParen].map Token.ofKind) (.expression 0) =
        .ok t) := by
  obtain ⟨t, h, hv, hsigns⟩ : ∃ t, Entry.parse ⟨100, .recover⟩
      ([Kind.name, .leftParen, .minus, .name, .rightParen].map Token.ofKind) (.expression 0) =
        .ok t ∧ t.isValid = true ∧ t.signCount = 1 := by
    decide +kernel
  refine ⟨t, fun d hd => parse_nesting (.expression 0) h hv ?_⟩
  rw [hsigns]
  exact hd

end Parser

end PipeQuery

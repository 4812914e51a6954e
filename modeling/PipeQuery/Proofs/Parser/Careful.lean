import PipeQuery.Proofs.Parser.Bodies

/-!
# Where scripts meet errors

A node keeps the first error that it is given, and no other. So it matters which errors a rule can
meet at its own node: behind an error that it has gone on from, a careful rule meets no other,
unless a new node has taken the place of the old one, or the input ends. It also tells the truth:
what it says that it expected is not what it found.

## Main definitions

* `Rule.isOuter`: the rules that queries stand in
* `Rule.Called`, `Rule.Leaves`: the tokens before and behind a rule that is called
* `Slate`: what is known of the error of an open node
* `Script.Careful`: a script that meets errors only where its node can take them

## Main results

* `opening_careful`, `Phase.script_careful`: the scripts of all rules are careful
-/

namespace PipeQuery

open Token (Kind KindSet)
open PipeQuery.Parser (next isName)

namespace Rule

/-- The rules that queries stand in, and queries. All other rules stand within a stage. -/
def isOuter : Rule → Bool
  | singleStatement | query | sourceCommand | explainCommand | subqueryExpression => true
  | _ => false

/-- A rule is called over a floor before the tokens `w`: the word of `limit` comes next, and a query
has no floor. -/
structure Called (r : Rule) (floor : Nat) (w : List Kind) : Prop where
  word : r = .limitCommand → next w = .limitCmd
  floor_eq : r = .query → floor = 0

/-- What a rule that is called before the tokens `w` leaves: a query ends at its bracket or with the
input, and a name is one token. -/
structure Leaves (r : Rule) (w w' : List Kind) : Prop where
  query : r = .query → next w' = .endOfInput ∨ next w' = .rightBracket
  identifier : r = .identifier → isName (next w) = true → w' = w.tail

end Rule

namespace Parser

open Script

/-! ## What is known of a node -/

/-- What is known of the error of an open node. -/
inductive Slate where
  /-- It has none. -/
  | clean
  /-- If it has one, no token has been matched since. -/
  | fresh
  /-- Nothing is known. -/
  | marked
deriving DecidableEq

namespace Slate

/-- What is known behind a token that was matched, or a rule that was called. -/
def behind : Slate → Slate
  | clean => clean
  | fresh | marked => marked

@[simp]
theorem behind_behind (a : Slate) : a.behind.behind = a.behind := by
  cases a <;> rfl

/-- An error that the rule `r` meets before the tokens `w`, where it expects these kinds, is kept;
or it is that of a bracket which is missing at the end of the input. -/
def Takes (a : Slate) (r : Rule) (expected : KindSet) (w : List Kind) : Prop :=
  a ≠ marked ∨ next w = .endOfInput ∧ r = .subqueryExpression ∧ expected = .ofList [.rightBracket]

theorem takes_clean {r : Rule} {expected : KindSet} {w : List Kind} : clean.Takes r expected w :=
  .inl (by decide)

end Slate

/-- A phase of the rule `r` that meets errors only where its node can take them. If `tidy`, the node
is to be clean at the end of the rule. -/
def Phase.Careful (r : Rule) (tidy : Prop) (a : Slate) (w : List Kind) : Phase → Prop
  | more s => s = .arguments → a = .clean ∧ ¬ tidy
  | arguments | nulls | direction => a = .clean ∧ ¬ tidy
  | operators c _ => c.rule = r
  | stages floor =>
    r = .query ∧ floor = 0 ∧ ¬ tidy ∧ (a ≠ .marked ∨ stageEnd.contains (next w) = true)
  | comparison => r = .valueExpression
  | grouping => True

/-- A script of the rule `r`, before these tokens, that meets errors only where its node can take
them, and does not expect what it finds. -/
def Script.Careful (r : Rule) (tidy : Prop) : Script → Slate → List Kind → Prop
  | done, a, _ => tidy → a = .clean
  | step (.relabel l) p, a, w => l.rule = r ∧ p.Careful r tidy a w
  | step (.wrap l) p, _, w => l.rule = r ∧ p.Careful r tidy .clean w
  | step (.take set) p, a, w =>
    (set.contains (next w) = true ∧ ∀ w, p.Careful r tidy a.behind w) ∨
      (a.Takes r set w ∧ ∀ w, p.Careful r tidy .marked w)
  | step (.check floor highest) p, a, w =>
    (floor ≤ highest → p.Careful r tidy a w) ∧
      (¬ floor ≤ highest → a.Takes r ∅ w ∧ p.Careful r tidy .fresh w)
  | step (.fail expected) _, a, w => expected.contains (next w) = false ∧ a.Takes r expected w
  | step .sync p, a, w =>
    r = .query ∧ Rule.query.follow.contains (next w) = false ∧
      a.Takes r Rule.query.follow w ∧
      ∀ w, stageEnd.contains (next w) = true → p.Careful r tidy .marked w
  | call r' f p, a, w =>
    r'.Called f w ∧ (r'.isOuter = true → r.isOuter = true) ∧
      ∀ w', r'.Leaves w w' → p.Careful r tidy a.behind w'
  | go q, a, w => (tidy → a = .clean) ∧ q.Careful r tidy a w

variable {r r' : Rule} {tidy : Prop} {a : Slate} {p : Script} {k : Kind} {w : List Kind} {f : Nat}
  {set : KindSet}

/-! ## The scripts of the rules -/

/-- A token that comes next is matched. -/
theorem careful_next (hk : next w = k) (hp : ∀ w, p.Careful r tidy a.behind w) :
    (token k p).Careful r tidy a w :=
  .inl ⟨by rw [hk]; simp, hp⟩

/-- A clean node can take an error where a token is missing. -/
theorem careful_take (hp : ∀ w, p.Careful r tidy .marked w) :
    (step (.take set) p).Careful r tidy .clean w :=
  .inr ⟨Slate.takes_clean, hp⟩

/-- A rule that may be called before any tokens. -/
theorem careful_call (hp : ∀ w, p.Careful r tidy a.behind w)
    (hr : r' ≠ .limitCommand ∧ r' ≠ .query := by decide)
    (ho : r'.isOuter = true → r.isOuter = true := by simp [Rule.isOuter]) :
    (call r' f p).Careful r tidy a w :=
  ⟨⟨fun h => absurd h hr.1, fun h => absurd h hr.2⟩, ho, fun w' _ => hp w'⟩

theorem careful_done (h : ¬ tidy) : Script.done.Careful r tidy a w := fun ht => absurd ht h

theorem careful_only (h : ¬ tidy) (hr : r' ≠ .limitCommand ∧ r' ≠ .query := by decide)
    (ho : r'.isOuter = true → r.isOuter = true := by simp [Rule.isOuter]) :
    (only r').Careful r tidy a w :=
  careful_call (fun _ => careful_done h) hr ho

/-- **The scripts of all phases are careful.** -/
theorem Phase.script_careful {q : Phase} (ht : tidy → a = .clean) (hq : q.Careful r tidy a w) :
    (q.script w).Careful r tidy a w := by
  have hbehind : tidy → a.behind = .clean := fun h => by rw [ht h]; rfl
  cases q with
  | more s =>
    rw [script]
    split
    · rename_i hk
      refine careful_next hk fun w => careful_call (fun w => ?_) ?_ ?_
      · refine ⟨fun h => by rw [hbehind h]; rfl, fun hs => ?_⟩
        obtain ⟨rfl, hn⟩ := hq hs
        exact ⟨rfl, hn⟩
      · cases s <;> decide
      · cases s <;> simp [Series.item, Rule.isOuter]
    · cases s with
      | arguments =>
        obtain ⟨rfl, hn⟩ := hq rfl
        exact careful_take fun _ => careful_done hn
      | _ => exact ht
  | operators c floor =>
    obtain rfl : c.rule = r := hq
    simp only [script]
    split
    · exact ht
    · split
      · exact ht
      · -- The node is a new one, behind its operand and an operator.
        refine ⟨c.rule_wrapper, careful_next rfl fun w => careful_call (fun w => ?_) ?_ id⟩
        · exact ⟨fun _ => rfl, rfl⟩
        · cases c <;> decide
  | stages floor =>
    obtain ⟨rfl, rfl, hn, ha⟩ := hq
    rw [script]
    split
    · rename_i hk
      rw [Bool.and_eq_true, decide_eq_true_eq] at hk
      exact ⟨rfl, careful_next hk.1 fun w => careful_call fun w =>
        ⟨fun _ => rfl, rfl, rfl, hn, .inl (by decide)⟩⟩
    · split
      · exact careful_done hn
      · rename_i hfollow
        have hfollow : stageEnd.contains (next w) = false := Bool.eq_false_iff.mpr hfollow
        refine ⟨rfl, hfollow, .inl (ha.resolve_right ?_), fun w hw => ?_⟩
        · rw [hfollow]
          exact Bool.false_ne_true
        · exact ⟨fun h => absurd h hn, rfl, rfl, hn, .inr hw⟩
  | comparison =>
    obtain rfl : r = .valueExpression := hq
    rw [script]
    split
    · exact ⟨rfl, careful_call fun w => careful_call fun w h => by rw [ht h]; rfl⟩
    · exact ⟨rfl, ht⟩
  | grouping =>
    rw [script]
    split
    · rename_i hk
      exact careful_next hk fun w => careful_call fun w h => by rw [ht h]; rfl
    · exact ht
  | direction =>
    obtain ⟨rfl, hn⟩ := hq
    rw [script]
    split
    · exact careful_next rfl fun w => ⟨fun _ => rfl, rfl, hn⟩
    · exact ⟨fun _ => rfl, rfl, hn⟩
  | nulls =>
    obtain ⟨rfl, hn⟩ := hq
    rw [script]
    split
    · rename_i hk
      exact careful_next hk fun w => careful_take fun _ => careful_done hn
    · exact careful_done hn
  | arguments =>
    obtain ⟨rfl, hn⟩ := hq
    rw [script]
    split
    · exact careful_call fun w => ⟨fun _ => rfl, fun _ => ⟨rfl, hn⟩⟩
    · exact careful_take fun _ => careful_done hn

/-- The script of a rule that starts with the word of one of several rules. -/
theorem choice_careful {first : Kind → Option Rule} {expected : KindSet} (hn : ¬ tidy)
    (hcall : ∀ k r', first k = some r' → (r' = .limitCommand → k = .limitCmd) ∧ r' ≠ .query ∧
      (r'.isOuter = true → r.isOuter = true))
    (hfail : ∀ k, first k = none → expected.contains k = false) :
    (choice first expected w).Careful r tidy .clean w := by
  rw [choice]
  split
  · rename_i r' hr
    obtain ⟨hword, hquery, ho⟩ := hcall _ _ hr
    exact ⟨⟨hword, fun h => absurd h hquery⟩, ho, fun _ _ => careful_done hn⟩
  · rename_i hr
    exact ⟨hfail _ hr, Slate.takes_clean⟩

/-- A rule is left where none of its alternatives starts. -/
theorem careful_leave {expected : KindSet} (h : expected.contains (next w) = false)
    (ha : a.Takes r expected w) : (leave expected).Careful r tidy a w :=
  ⟨h, ha⟩

/-- No primary expression is announced by what starts none. -/
theorem contains_of_primaryForm? (h : primaryForm? w = none) :
    Rule.primaryExpression.first.contains (next w) = false := by
  have hfirst : ∀ k, ¬ Rule.constant.first.contains k = true → k ≠ .leftParen → ¬ isName k = true →
      Rule.primaryExpression.first.contains k = false := by decide
  rw [primaryForm?] at h
  split at h
  · cases h
  · split at h
    · cases h
    · split at h
      · split at h <;> cases h
      · exact hfirst _ ‹_› ‹_› ‹_›

theorem contains_of_fieldForm? (h : fieldForm? w = none) :
    Rule.field.first.contains (next w) = false := by
  rw [fieldForm?] at h
  split at h
  · rename_i hk
    exact Bool.not_eq_true' _ ▸ hk
  · split at h <;> cases h

theorem contains_of_clauseForm? (h : clauseForm? w = none) :
    Rule.projectClause.first.contains (next w) = false := by
  rw [clauseForm?] at h
  split at h
  · rename_i hk
    exact Bool.not_eq_true' _ ▸ hk
  · split at h <;> cases h

/-- A call is announced by a name and a parenthesis. -/
theorem next_of_primaryForm? (h : primaryForm? w = some .call) :
    isName (next w) = true ∧ next w.tail = .leftParen := by
  rw [primaryForm?] at h
  split at h
  · cases h
  · split at h
    · cases h
    · split at h
      · split at h
        · exact ⟨‹_›, ‹_›⟩
        · cases h
      · cases h

/-- Behind the check of its floor an expression goes on with a node that can take an error. -/
theorem unchecked_careful (ha : a ≠ .marked) (ht : tidy → a = .clean) :
    (unchecked f w).Careful .booleanExpression tidy a w := by
  have hoperators (w) :
      (go (.operators .logical f)).Careful .booleanExpression tidy a.behind w :=
    ⟨fun h => by rw [ht h]; rfl, rfl⟩
  rw [unchecked]
  split
  · rename_i hk
    refine ⟨rfl, careful_next hk fun _ => careful_call fun w => ?_⟩
    rw [a.behind_behind]
    exact hoperators w
  · rename_i hnot
    split
    · exact ⟨rfl, careful_call hoperators⟩
    · rename_i hvalue
      have hfirst : ∀ k, k ≠ .notWord → ¬ Rule.valueExpression.first.contains k = true →
          Rule.booleanExpression.first.contains k = false := by decide
      exact careful_leave (hfirst _ hnot hvalue) (.inl ha)

theorem uncheckedOperator_careful (hn : ¬ tidy) (ha : a ≠ .marked) :
    (uncheckedOperator f w).Careful .operatorExpression tidy a w := by
  rw [uncheckedOperator]
  split
  · exact ⟨rfl, careful_next rfl fun _ => careful_call fun _ => ⟨fun h => absurd h hn, rfl⟩⟩
  · rename_i hsign
    split
    · exact ⟨rfl, careful_call fun _ => ⟨fun h => absurd h hn, rfl⟩⟩
    · rename_i hprimary
      have hfirst : ∀ k, ¬ (k = .plus || k = .minus) = true →
          ¬ Rule.primaryExpression.first.contains k = true →
          Rule.operatorExpression.first.contains k = false := by decide
      exact careful_leave (hfirst _ hsign hprimary) (.inl ha)

/-- **The scripts of all rules are careful.** An expression leaves its node clean unless its floor
is too high, which it tells of at its node. -/
theorem opening_careful (h : r.Called f w)
    (ht : tidy → r = .booleanExpression ∧ f ≤ Precedence.booleanMax) :
    (opening r f w).Careful r tidy .clean w := by
  have hn (hr : r ≠ .booleanExpression := by decide) : ¬ tidy := fun h => hr (ht h).1
  cases r with
  | singleStatement =>
    refine ⟨⟨(fun h => by cases h), fun _ => rfl⟩, fun _ => rfl, fun w _ => ?_⟩
    exact careful_take fun _ => careful_done hn
  | query =>
    obtain rfl := h.floor_eq rfl
    exact ⟨rfl, careful_call fun w => ⟨fun _ => rfl, rfl, rfl, hn, .inl (by decide)⟩⟩
  | sourceCommand =>
    refine choice_careful hn (fun k r' hr => ?_) (by decide)
    unfold sourceCommandOf at hr
    split at hr <;> cases hr <;> simp [Rule.isOuter]
  | processingCommand =>
    refine choice_careful hn (fun k r' hr => ?_) (by decide)
    unfold processingCommandOf at hr
    split at hr <;> cases hr <;> simp [Rule.isOuter]
  | whereCommand | rowCommand | evalCommand | explainCommand =>
    exact careful_take fun _ => careful_only hn
  | statsCommand =>
    exact careful_take fun _ => careful_call fun _ => ⟨fun h => absurd h hn, trivial⟩
  | fromCommand | sortCommand | projectCommand =>
    exact careful_take fun _ => careful_call fun _ => ⟨fun h => absurd h hn, fun h => by cases h⟩
  | limitCommand =>
    -- The word of the command is not missing, so only the number can be.
    exact careful_next (h.word rfl) fun _ => careful_take fun _ => careful_done hn
  | booleanExpression =>
    -- A floor that is too high is told of first, and the rule goes on.
    rw [opening_boolean]
    exact ⟨fun _ => unchecked_careful (by decide) fun _ => rfl, fun hf =>
      ⟨Slate.takes_clean, unchecked_careful (by decide) fun h => absurd (ht h).2 hf⟩⟩
  | operatorExpression =>
    rw [opening_operator]
    exact ⟨fun _ => uncheckedOperator_careful hn (by decide), fun _ =>
      ⟨Slate.takes_clean, uncheckedOperator_careful hn (by decide)⟩⟩
  | valueExpression => exact careful_call fun _ => ⟨fun h => absurd h hn, rfl⟩
  | primaryExpression =>
    simp only [opening]
    split
    · exact ⟨rfl, careful_only hn⟩
    · exact ⟨rfl, careful_only hn⟩
    · rename_i hform
      exact ⟨rfl, careful_next (next_of_parenthesized hform) fun _ => careful_call fun _ =>
        careful_take fun _ => careful_done hn⟩
    · -- The name and the parenthesis that announce a call are not missing.
      rename_i hform
      obtain ⟨hname, hparen⟩ := next_of_primaryForm? hform
      refine ⟨rfl, ⟨(fun h => by cases h), fun h => by cases h⟩, (fun h => by cases h), ?_⟩
      intro w' hw
      obtain rfl := hw.identifier rfl hname
      exact careful_next hparen fun _ => ⟨fun _ => rfl, rfl, hn⟩
    · rename_i hform
      exact careful_leave (contains_of_primaryForm? hform) (Slate.takes_clean)
  | field =>
    simp only [opening]
    split
    · exact careful_only hn
    · exact careful_call fun _ => careful_take fun _ => careful_only hn
    · rename_i hform
      exact careful_leave (contains_of_fieldForm? hform) (Slate.takes_clean)
  | projectClause =>
    simp only [opening]
    split
    · exact careful_only hn
    · exact careful_call fun _ => careful_take fun _ => careful_only hn
    · rename_i hform
      exact careful_leave (contains_of_clauseForm? hform) (Slate.takes_clean)
  | constant =>
    simp only [opening]
    split
    · exact ⟨rfl, careful_take fun _ => careful_done hn⟩
    · exact ⟨rfl, careful_only hn⟩
    · exact ⟨rfl, careful_only hn⟩
    · exact ⟨rfl, careful_only hn⟩
    · exact ⟨rfl, careful_only hn⟩
    · exact ⟨rfl, careful_only hn⟩
    · rename_i hnull hinteger hdecimal htrue hfalse hstring
      have hfirst : ∀ k ∉ [Kind.nullWord, .integer, .decimal, .trueWord, .falseWord, .string],
          Rule.constant.first.contains k = false := by decide
      refine careful_leave (hfirst _ ?_) (Slate.takes_clean)
      simpa using ⟨hnull, hinteger, hdecimal, htrue, hfalse, hstring⟩
  | number =>
    simp only [opening]
    split
    · exact ⟨rfl, careful_take fun _ => careful_done hn⟩
    · exact ⟨rfl, careful_take fun _ => careful_done hn⟩
    · rename_i hdecimal hinteger
      have hfirst : ∀ k : Kind, k ≠ .decimal → k ≠ .integer →
          Rule.number.first.contains k = false := by decide
      exact careful_leave (hfirst _ hdecimal hinteger) (Slate.takes_clean)
  | sourceIdentifier | identifier | booleanValue | comparisonOperator | string =>
    exact careful_take fun _ => careful_done hn
  | fields | qualifiedName | qualifiedNames =>
    exact careful_call fun _ => ⟨fun h => absurd h hn, fun h => by cases h⟩
  | orderExpression => exact careful_call fun _ => ⟨fun h => absurd h hn, rfl, hn⟩
  | subqueryExpression =>
    -- Behind its query a bracket is missing at the end of the input only.
    refine careful_take fun w => ⟨⟨(fun h => by cases h), fun _ => rfl⟩, fun _ => rfl, ?_⟩
    intro w hw
    rcases hw.query rfl with heof | hright
    · exact .inr ⟨.inr ⟨heof, rfl, rfl⟩, fun _ => careful_done hn⟩
    · exact careful_next hright fun _ => careful_done hn

end Parser

end PipeQuery

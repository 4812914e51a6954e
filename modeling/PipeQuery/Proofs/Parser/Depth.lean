import PipeQuery.Proofs.Parser.Script

/-!
# How deep rules nest

A rule may call rules that call others before a token is matched, but only so many: every rule has
a height, which is the number of rules that are opened below it at most before it matches its first
token. Each token matched allows four more rules to be open, and no script needs more than that.

## Main definitions

* `Rule.height`, `Phase.height`: the number of rules opened before a token is matched
* `Script.Affordable`: a script that opens no more rules than it has been allowed

## Main results

* `opening_affordable`, `Phase.script_affordable`: every script can afford what it opens
-/

namespace PipeQuery

/-- The number of rules that are open below a rule, at most, before it matches its first token. -/
def Rule.height : Rule → Nat
  | singleStatement => 7
  | query => 6
  | sourceCommand | processingCommand => 5
  | whereCommand => 2
  | booleanExpression => 5
  | valueExpression => 4
  | operatorExpression => 3
  | primaryExpression => 2
  | rowCommand | evalCommand | statsCommand => 4
  | fields => 7
  | field | orderExpression => 6
  | constant | qualifiedName | projectClause => 1
  | qualifiedNames => 2
  | sortCommand | subqueryExpression => 3
  | fromCommand | projectCommand | explainCommand | limitCommand => 0
  | sourceIdentifier | identifier | booleanValue | number | string | comparisonOperator => 0

namespace Parser

open Token (Kind)

/-- The number of rules that are opened where a phase begins, at most, before a token is
matched. -/
def Phase.height : Phase → Nat
  | .more s => s.item.height - 3
  | .operators .. | .stages _ => 2
  | .comparison => 4
  | .grouping | .direction | .nulls => 0
  | .arguments => 6

/-- A script that opens no more than `b` rules, one below the other, before it matches a token, and
four more for each token that it has matched. -/
def Script.Affordable : Script → Nat → Prop
  | done, _ => True
  | step (.take _) p, b => p.Affordable (b + 4)
  | step _ p, b => p.Affordable b
  | call r _ p, b => r.height < b ∧ p.Affordable b
  | go q, b => q.height ≤ b

open Script

theorem affordable_go {q : Phase} {b : Nat} (h : q.height ≤ b) : (go q).Affordable b := h

theorem Series.ending_affordable (s : Series) (b : Nat) : s.ending.Affordable b := by
  cases s <;> exact trivial

/-- **Every phase can afford what it opens.** -/
theorem Phase.script_affordable (q : Phase) (w : List Kind) : (q.script w).Affordable q.height := by
  -- What is called behind a token is paid for by the token, so only the first call counts in full.
  cases q with
  | more s =>
    rw [script]
    split
    · refine ⟨?_, ?_⟩
      · show s.item.height < s.item.height - 3 + 4
        omega
      · show s.item.height - 3 ≤ s.item.height - 3 + 4
        omega
    · exact s.ending_affordable _
  | operators c floor =>
    simp only [script]
    split
    · exact trivial
    · split
      · exact trivial
      · refine ⟨?_, affordable_go (by simp [Phase.height])⟩
        cases c <;> simp [Climb.rule, Rule.height, Phase.height]
  | stages floor =>
    simp only [script]
    split
    · exact ⟨by simp [Rule.height, Phase.height], affordable_go (by simp [Phase.height])⟩
    · split
      · exact trivial
      · exact Nat.le_refl 2
  | comparison =>
    rw [script]
    split
    · exact ⟨by decide, by decide, trivial⟩
    · exact trivial
  | grouping =>
    rw [script]
    split
    · exact ⟨by decide, trivial⟩
    · exact trivial
  | direction =>
    rw [script]
    split
    · exact Nat.zero_le _
    · exact Nat.le_refl 0
  | nulls =>
    rw [script]
    split <;> exact trivial
  | arguments =>
    rw [script]
    split
    · exact ⟨by decide, affordable_go (by decide)⟩
    · exact trivial

theorem choice_affordable {first : Kind → Option Rule} {expected : Token.KindSet} {w : List Kind}
    {b : Nat} (h : ∀ r, first (next w) = some r → r.height < b) :
    (choice first expected w).Affordable b := by
  rw [choice]
  split
  · rename_i r hr
    exact ⟨h r hr, trivial⟩
  · exact trivial

/-- **Every rule can afford what it opens.** -/
theorem opening_affordable (r : Rule) (f : Nat) (w : List Kind) :
    (opening r f w).Affordable r.height := by
  cases r with
  | sourceCommand =>
    refine choice_affordable fun r hr => ?_
    unfold sourceCommandOf at hr
    split at hr <;> cases hr <;> decide
  | processingCommand =>
    refine choice_affordable fun r hr => ?_
    unfold processingCommandOf at hr
    split at hr <;> cases hr <;> decide
  | booleanExpression | operatorExpression =>
    simp only [opening, unchecked, uncheckedOperator, label, token, leave, Affordable]
    split
    · exact ⟨by decide, affordable_go (by simp [Phase.height, Rule.height])⟩
    · split
      · exact ⟨by decide, affordable_go (by simp [Phase.height, Rule.height])⟩
      · exact trivial
  | primaryExpression =>
    simp only [opening]
    split
    · exact ⟨by decide, trivial⟩
    · exact ⟨by decide, trivial⟩
    · exact ⟨by decide, trivial⟩
    · exact ⟨by decide, affordable_go (by decide)⟩
    · exact trivial
  | field | projectClause =>
    simp only [opening]
    split
    · exact ⟨by decide, trivial⟩
    · exact ⟨by decide, by decide, trivial⟩
    · exact trivial
  | constant | number =>
    simp only [opening]
    split <;> first | exact trivial | exact ⟨by decide, trivial⟩
  | _ => simp [opening, label, token, only, Affordable, Rule.height, Phase.height, Series.item]

end Parser

end PipeQuery

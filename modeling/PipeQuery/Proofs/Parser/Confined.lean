import PipeQuery.Proofs.Parser.Script

/-!
# The scripts of a stage

No rule within a stage matches a pipe, or waits for the word of a processing command that does not
come next. A stage holds other queries behind brackets only.

## Main definitions

* `Script.Confined`: a script whose rules stay in their stage

## Main results

* `opening_confined`, `Phase.script_confined`: the scripts of the rules within a stage are confined
-/

namespace PipeQuery

open Token (Kind KindSet)
open PipeQuery.Parser (next)

/-- A set without a pipe and the words of processing commands. -/
def Token.KindSet.Inner (set : KindSet) : Prop :=
  set.contains .pipe = false ∧ ∀ k, Rule.processingCommandFirst.contains k = true →
    set.contains k = false

/-- A rule that is called within a stage before these tokens: processing commands are called at
their own words. -/
def Rule.Confined : Rule → List Kind → Prop
  | singleStatement, _ | query, _ => False
  | evalCommand, w => next w = .evalCmd
  | limitCommand, w => next w = .limitCmd
  | projectCommand, w => next w = .projectCmd
  | sortCommand, w => next w = .sortCmd
  | statsCommand, w => next w = .statsCmd
  | whereCommand, w => next w = .whereCmd
  | _, _ => True

namespace Parser

open Script

/-- A script of a rule within a stage, before these tokens. It does not match a pipe, waits for no
command word but one that comes next, and calls no query, unless behind a bracket. -/
def Script.Confined : Script → List Kind → Prop
  | done, _ => True
  | step (.take set) p, w =>
    set.contains .pipe = false ∧ (set.Inner ∨ set.contains (next w) = true) ∧
      (set = .ofList [.leftBracket] ∨ ∀ w, p.Confined w)
  | step .sync _, _ => False
  | step _ p, w => p.Confined w
  | call r _ p, w => r.Confined w ∧ ∀ w, p.Confined w
  | go (.stages _), _ => False
  | go _, _ => True

/-! ## The scripts of the rules -/

instance (set : KindSet) : Decidable set.Inner :=
  decidable_of_iff (set.contains .pipe = false ∧ ∀ k ∈ Rule.processingCommandFirst.toList,
      set.contains k = false)
    (and_congr_right fun _ => forall_congr' fun k => by rw [KindSet.mem_toList]; rfl)

variable {p : Script} {w : List Kind} {set : KindSet} {k : Kind} {r : Rule} {f : Nat}

theorem confined_take (hset : set.Inner) (hp : ∀ w, p.Confined w) :
    (step (.take set) p).Confined w :=
  ⟨hset.1, .inl hset, .inr hp⟩

theorem confined_token (hk : (KindSet.ofList [k]).Inner) (hp : ∀ w, p.Confined w) :
    (token k p).Confined w :=
  confined_take hk hp

/-- A script that matches the token that comes next, which is no pipe. -/
theorem confined_next (hk : next w = k) (hpipe : k ≠ .pipe) (hp : ∀ w, p.Confined w) :
    (token k p).Confined w :=
  ⟨by simpa using hpipe.symm, .inr (by rw [hk]; simp), .inr hp⟩

theorem Series.ending_confined (s : Series) (w : List Kind) : s.ending.Confined w := by
  cases s <;> first | exact trivial | exact confined_token (by decide) fun _ => trivial

theorem choice_confined {first : Kind → Option Rule} {expected : KindSet}
    (h : ∀ r, first (next w) = some r → r.Confined w) : (choice first expected w).Confined w := by
  rw [choice]
  split
  · rename_i r hr
    exact ⟨h r hr, fun _ => trivial⟩
  · exact trivial

/-- **The phases within a stage are confined.** -/
theorem Phase.script_confined {q : Phase} (hq : ∀ f, q ≠ .stages f) (w : List Kind) :
    (q.script w).Confined w := by
  cases q with
  | more s =>
    rw [script]
    split
    · rename_i hk
      -- The mark between two items is there when it is matched, and in no list it is the pipe.
      refine confined_next hk (by cases s <;> decide) fun w => ⟨?_, fun _ => trivial⟩
      cases s <;> exact trivial
    · exact s.ending_confined w
  | operators c floor =>
    simp only [script]
    split
    · exact trivial
    · rename_i hp
      split
      · exact trivial
      · refine confined_next rfl ?_ fun w => ⟨?_, fun _ => trivial⟩
        · intro hpipe
          rw [hpipe] at hp
          -- A pipe has no precedence.
          cases c <;> cases hp
        · cases c <;> exact trivial
  | stages floor => exact absurd rfl (hq floor)
  | comparison =>
    rw [script]
    split
    · exact ⟨trivial, fun _ => ⟨trivial, fun _ => trivial⟩⟩
    · exact trivial
  | grouping =>
    rw [script]
    split
    · rename_i hk
      exact confined_next hk (by decide) fun _ => ⟨trivial, fun _ => trivial⟩
    · exact trivial
  | direction =>
    rw [script]
    split
    · rename_i hk
      refine confined_next rfl ?_ fun _ => trivial
      intro hpipe
      simp [hpipe] at hk
    · exact trivial
  | nulls =>
    rw [script]
    split
    · rename_i hk
      exact confined_next hk (by decide) fun _ => confined_take (by decide) fun _ => trivial
    · exact trivial
  | arguments =>
    rw [script]
    split
    · exact ⟨trivial, fun _ => trivial⟩
    · exact confined_token (by decide) fun _ => trivial

/-- **The rules within a stage are confined.** -/
theorem opening_confined (h : r.Confined w) (f : Nat) : (opening r f w).Confined w := by
  have hcall (r : Rule) (hr : ∀ w, r.Confined w) (w : List Kind) : (only r).Confined w :=
    ⟨hr w, fun _ => trivial⟩
  cases r with
  | singleStatement | query => exact h.elim
  | sourceCommand =>
    refine choice_confined fun r hr => ?_
    unfold sourceCommandOf at hr
    split at hr <;> cases hr <;> exact trivial
  | processingCommand =>
    refine choice_confined fun r hr => ?_
    unfold processingCommandOf at hr
    split at hr <;> cases hr <;> assumption
  | whereCommand => exact confined_next h (by decide) (hcall _ fun _ => trivial)
  | evalCommand => exact confined_next h (by decide) (hcall _ fun _ => trivial)
  | statsCommand | sortCommand | projectCommand =>
    exact confined_next h (by decide) fun _ => ⟨trivial, fun _ => trivial⟩
  | limitCommand =>
    exact confined_next h (by decide) fun _ => confined_token (by decide) fun _ => trivial
  | rowCommand | explainCommand =>
    exact confined_token (by decide) (hcall _ fun _ => trivial)
  | fromCommand => exact confined_token (by decide) fun _ => ⟨trivial, fun _ => trivial⟩
  | booleanExpression =>
    simp only [opening, unchecked, label, leave, Script.Confined]
    split
    · exact confined_token (by decide) fun _ => ⟨trivial, fun _ => trivial⟩
    · split
      · exact ⟨trivial, fun _ => trivial⟩
      · exact trivial
  | operatorExpression =>
    simp only [opening, uncheckedOperator, label, leave, Script.Confined]
    split
    · rename_i hk
      refine confined_next rfl ?_ fun _ => ⟨trivial, fun _ => trivial⟩
      intro hpipe
      simp [hpipe] at hk
    · split
      · exact ⟨trivial, fun _ => trivial⟩
      · exact trivial
  | primaryExpression =>
    simp only [opening]
    split
    · exact ⟨trivial, fun _ => trivial⟩
    · exact ⟨trivial, fun _ => trivial⟩
    · exact confined_token (by decide) fun _ =>
        ⟨trivial, fun _ => confined_token (by decide) fun _ => trivial⟩
    · exact ⟨trivial, fun _ => confined_token (by decide) fun _ => trivial⟩
    · exact trivial
  | field | projectClause =>
    simp only [opening]
    split
    · exact ⟨trivial, fun _ => trivial⟩
    · exact ⟨trivial, fun _ => confined_token (by decide) (hcall _ fun _ => trivial)⟩
    · exact trivial
  | constant =>
    simp only [opening]
    split
    · exact confined_token (by decide) fun _ => trivial
    · exact ⟨trivial, fun _ => trivial⟩
    · exact ⟨trivial, fun _ => trivial⟩
    · exact ⟨trivial, fun _ => trivial⟩
    · exact ⟨trivial, fun _ => trivial⟩
    · exact ⟨trivial, fun _ => trivial⟩
    · exact trivial
  | number =>
    simp only [opening]
    split
    · exact confined_token (by decide) fun _ => trivial
    · exact confined_token (by decide) fun _ => trivial
    · exact trivial
  | sourceIdentifier | identifier | booleanValue | comparisonOperator =>
    exact confined_take (by decide) fun _ => trivial
  | string => exact confined_token (by decide) fun _ => trivial
  | subqueryExpression =>
    -- The query behind the bracket is no matter of this stage.
    exact ⟨by decide, .inl (by decide), .inl rfl⟩
  | fields | valueExpression | qualifiedName | qualifiedNames | orderExpression =>
    exact ⟨trivial, fun _ => trivial⟩

end Parser

end PipeQuery

import PipeQuery.Proofs.Parser.Bodies

/-!
# What rules pass on

A rule calls others over floors that these accept, whatever floor it is called over itself. It does
not match the end of the input, which is left to the statement. So wherever a parse comes to, the
rest of the script keeps to this order.

## Main definitions

* `Script.Orderly`: a script that keeps to the order
* `Reaches`: the places that a parse comes to

## Main results

* `opening_orderly`, `Phase.script_orderly`: the scripts of all rules keep to it
* `Reaches.orderly`: so does whatever is left of them
-/

namespace PipeQuery.Parser

open Token (Kind KindSet)
open Script

variable {options : Options} {d f : Nat} {r : Rule} {m : Move} {p q : Script} {k : Kind}
  {w : List Kind} {s u : State}

/-! ## Orderly scripts -/

/-- A step that is no check of a floor, or of one that is accepted. -/
def Move.Accepted : Move → Prop
  | .check floor highest => floor ≤ highest
  | _ => True

/-- A script that does not match the end of the input, checks no floor that is too high, and calls
rules over floors that they accept. The statement is not called by any rule. -/
def Script.Orderly : Script → Prop
  | done => True
  | step m p => (m.Plain ∧ m.Accepted) ∧ p.Orderly
  | call r f p => (r ≠ .singleStatement ∧ f ≤ r.highestFloor) ∧ p.Orderly
  | go _ => True

theorem orderly_take {set : KindSet} (hp : p.Orderly)
    (hset : set.contains .endOfInput = false := by decide) : (step (.take set) p).Orderly :=
  ⟨⟨hset, trivial⟩, hp⟩

theorem orderly_token (hp : p.Orderly) (hk : k ≠ .endOfInput := by decide) :
    (token k p).Orderly :=
  orderly_take hp (by simpa using hk.symm)

theorem orderly_label {l : Label} (hp : p.Orderly) : (label l p).Orderly :=
  ⟨⟨trivial, trivial⟩, hp⟩

theorem orderly_call (hp : p.Orderly)
    (h : r ≠ .singleStatement ∧ f ≤ r.highestFloor := by decide) : (call r f p).Orderly :=
  ⟨h, hp⟩

theorem orderly_only (h : r ≠ .singleStatement ∧ 0 ≤ r.highestFloor := by decide) :
    (only r).Orderly :=
  ⟨h, trivial⟩

theorem orderly_leave {expected : KindSet} : (leave expected).Orderly :=
  ⟨⟨trivial, trivial⟩, trivial⟩

theorem orderly_choice {first : Kind → Option Rule} {expected : KindSet}
    (h : ∀ k, first k ≠ some .singleStatement) : (choice first expected w).Orderly := by
  rw [choice]
  split
  · rename_i r hr
    refine orderly_only ⟨?_, Nat.zero_le _⟩
    rintro rfl
    exact h _ hr
  · exact orderly_leave

/-- **The scripts of all phases are orderly.** -/
theorem Phase.script_orderly (q : Phase) : (q.script w).Orderly := by
  cases q with
  | more s =>
    rw [script]
    split
    · exact orderly_token (orderly_call trivial ⟨s.item_ne, Nat.zero_le _⟩) (by cases s <;> decide)
    · cases s with
      | arguments => exact orderly_token trivial
      | _ => trivial
  | operators c floor =>
    simp only [script]
    split
    · trivial
    · rename_i p hp
      split
      · trivial
      · -- The one floor that is not the lowest: it is just above a precedence, which is accepted.
        have hcall : c.rule ≠ .singleStatement ∧ p + 1 ≤ c.rule.highestFloor :=
          ⟨by cases c <;> decide, c.succ_le_highestFloor hp⟩
        refine ⟨⟨trivial, trivial⟩, orderly_token (orderly_call trivial hcall) ?_⟩
        intro heof
        rw [heof] at hp
        cases c <;> cases hp
  | stages floor =>
    rw [script]
    split
    · exact ⟨⟨trivial, trivial⟩, orderly_token (orderly_call trivial)⟩
    · split
      · trivial
      · exact ⟨⟨trivial, trivial⟩, trivial⟩
  | comparison =>
    rw [script]
    split
    · exact orderly_label (orderly_call orderly_only)
    · exact orderly_label trivial
  | grouping =>
    rw [script]
    split
    · exact orderly_token orderly_only
    · trivial
  | direction =>
    rw [script]
    split
    · rename_i hk
      refine orderly_token trivial ?_
      intro heof
      rw [heof] at hk
      exact absurd hk (by decide)
    · trivial
  | nulls =>
    rw [script]
    split
    · exact orderly_token (orderly_take trivial)
    · trivial
  | arguments =>
    rw [script]
    split
    · exact orderly_call trivial
    · exact orderly_token trivial

/-- Behind its check an expression is orderly over every floor. -/
theorem unchecked_orderly : (unchecked f w).Orderly := by
  rw [unchecked]
  split
  · exact orderly_label (orderly_token (orderly_call trivial))
  · split
    · exact orderly_label (orderly_call trivial)
    · exact orderly_leave

theorem uncheckedOperator_orderly : (uncheckedOperator f w).Orderly := by
  rw [uncheckedOperator]
  split
  · rename_i hk
    refine orderly_label (orderly_token (orderly_call trivial) ?_)
    intro heof
    rw [heof] at hk
    exact absurd hk (by decide)
  · split
    · exact orderly_label (orderly_call trivial)
    · exact orderly_leave

/-- **The scripts of all rules are orderly**, over the floors that the rules accept. -/
theorem opening_orderly (hr : r ≠ .singleStatement) (hf : f ≤ r.highestFloor) :
    (opening r f w).Orderly := by
  -- Only the two rules of expressions look at their floor; all calls are over floors of their own.
  cases r with
  | singleStatement => exact absurd rfl hr
  | query => exact orderly_label (orderly_call trivial)
  | sourceCommand =>
    refine orderly_choice fun k => ?_
    unfold sourceCommandOf
    split <;> simp
  | processingCommand =>
    refine orderly_choice fun k => ?_
    unfold processingCommandOf
    split <;> simp
  | whereCommand | rowCommand | evalCommand | explainCommand => exact orderly_token orderly_only
  | statsCommand | fromCommand | sortCommand | projectCommand =>
    exact orderly_token (orderly_call trivial)
  | limitCommand => exact orderly_token (orderly_token trivial)
  | booleanExpression =>
    rw [opening_boolean]
    exact ⟨⟨trivial, hf⟩, unchecked_orderly⟩
  | operatorExpression =>
    rw [opening_operator]
    exact ⟨⟨trivial, hf⟩, uncheckedOperator_orderly⟩
  | valueExpression | fields | qualifiedName | qualifiedNames | orderExpression =>
    exact orderly_call trivial
  | primaryExpression =>
    simp only [opening]
    split
    · exact orderly_label orderly_only
    · exact orderly_label orderly_only
    · exact orderly_label (orderly_token (orderly_call (orderly_token trivial)))
    · exact orderly_label (orderly_call (orderly_token trivial))
    · exact orderly_leave
  | field =>
    simp only [opening]
    split
    · exact orderly_only
    · exact orderly_call (orderly_token orderly_only)
    · exact orderly_leave
  | projectClause =>
    simp only [opening]
    split
    · exact orderly_only
    · exact orderly_call (orderly_token orderly_only)
    · exact orderly_leave
  | constant =>
    simp only [opening]
    split
    · exact orderly_label (orderly_token trivial)
    · exact orderly_label orderly_only
    · exact orderly_label orderly_only
    · exact orderly_label orderly_only
    · exact orderly_label orderly_only
    · exact orderly_label orderly_only
    · exact orderly_leave
  | number =>
    simp only [opening]
    split
    · exact orderly_label (orderly_token trivial)
    · exact orderly_label (orderly_token trivial)
    · exact orderly_leave
  | sourceIdentifier | identifier | booleanValue | comparisonOperator => exact orderly_take trivial
  | string => exact orderly_token trivial
  | subqueryExpression => exact orderly_token (orderly_call (orderly_token trivial))

/-! ## The places that a parse comes to -/

/-- From the script `p` at the state `s` a parse comes to the script `q` at the state `u`: on the
way it takes steps, enters rules and goes on behind rules that have ended. Rules may be opened `d`
deep below the first script. -/
inductive Reaches (options : Options) : Nat → Script → State → Script → State → Prop where
  | here {d : Nat} {p : Script} {s : State} : Reaches options d p s p s
  | step {d : Nat} {m : Move} {p q : Script} {s s' u : State}
    (h : m.run options.strategy s = .ok () s') (hp : Reaches options d p s' q u) :
    Reaches options d (.step m p) s q u
  | into {d f : Nat} {r : Rule} {p q : Script} {s u : State}
    (h : Reaches options d (opening r f s.coming) (s.enter (.ofRule r) f) q u) :
    Reaches options (d + 1) (.call r f p) s q u
  | behind {d f : Nat} {r : Rule} {p q : Script} {s s' u : State}
    (h : parseRule options d r f s = .ok () s') (hp : Reaches options d p s' q u) :
    Reaches options d (.call r f p) s q u
  | go {d : Nat} {φ : Phase} {q : Script} {s u : State}
    (h : Reaches options d (φ.script s.coming) s q u) : Reaches options d (.go φ) s q u

/-- **What is left of an orderly script is orderly**, and so is what is left of the rules that it
calls. -/
theorem Reaches.orderly (h : Reaches options d p s q u) (hp : p.Orderly) : q.Orderly := by
  induction h with
  | here => exact hp
  | step _ _ ih => exact ih hp.2
  | into _ ih => exact ih (opening_orderly hp.1.1 hp.1.2)
  | behind _ _ ih => exact ih hp.2
  | go _ ih => exact ih (Phase.script_orderly _)

end PipeQuery.Parser

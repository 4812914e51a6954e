import PipeQuery.Proofs.Grammar.Stratified

/-!
# The levels of expressions

Each of the two rules with operators has two levels of binary operators, one above the other, and
above both the level of the operands: `or` below `and` below `not`, sums below products below signs.
An expression of a level is a row of expressions of the next level with operators of its own between
them, folded to the left.

The floors of the stratified grammar say the same of one operator at a time.

## Main definitions

* `Climb.Chain`: the rows of a level, folded to the left
* `Climb.Operand`: the level above the binary operators
* `Climb.Levels`: the three levels, one on top of the other

## Main results

* `groups_chain_iff`: what stands over a floor is a row of what stands over the next one
* `groups_levels_iff`: the stratified expressions are those built by the levels
-/

namespace PipeQuery

open Token (Kind)

namespace Climb

/-- The level of `or`, and that of sums. -/
def lower : Climb → Nat
  | logical => Precedence.disjunction
  | arithmetic => Precedence.additive

/-- The level of `and`, and that of products. -/
def upper : Climb → Nat
  | logical => Precedence.conjunction
  | arithmetic => Precedence.multiplicative

/-- An operator with the operand behind it. -/
structure Step where
  operator : Kind
  operand : Shape
  word : List Kind

/-- The word of an operator and its operand. -/
def Step.tokens (s : Step) : List Kind := s.operator :: s.word

/-- An operand that takes the steps behind it one by one, as the left operand of each. -/
def fold (c : Climb) : Shape → List Step → Shape :=
  List.foldl fun t s => .node c.wrapper [t, .token s.operator, s.operand]

/-- `operand (operator operand)*`, with the operators of one level, folded to the left. -/
inductive Chain (c : Climb) (level : Nat) (operand : Shape → List Kind → Prop) :
    Shape → List Kind → Prop where
  | intro {t : Shape} {v : List Kind} {steps : List Step} (first : operand t v)
    (rest : ∀ s ∈ steps, c.precedence s.operator = some level ∧ operand s.operand s.word) :
    Chain c level operand (c.fold t steps) (v ++ steps.flatMap Step.tokens)

/-- A prefix operator before an operand, or an expression without operators of its own. -/
inductive Operand (c : Climb) : Shape → List Kind → Prop where
  | signed {k : Kind} {t : Shape} {w : List Kind} (hk : k ∈ c.signs) (h : Operand c t w) :
    Operand c (.node c.signed [.token k, t]) (k :: w)
  | plain {l : Label} {body : List Symbol} {us : List Shape} {w : List Kind}
    (hl : Production l body) (ho : l.isOperation = false) (hr : l.rule = c.rule)
    (h : Stratified (ground body) us w) : Operand c (.node l us) w

/-- The levels: rows of rows of operands. -/
def Levels (c : Climb) : Shape → List Kind → Prop :=
  c.Chain c.lower (c.Chain c.upper c.Operand)

variable {c : Climb} {k : Kind} {p : Nat} {t u : Shape} {v w : List Kind}
  {operand operand' : Shape → List Kind → Prop}

/-- There are no operators but those of the two levels. -/
theorem precedence_eq (h : c.precedence k = some p) : p = c.lower ∨ p = c.upper := by
  cases c <;> cases k <;> cases h <;> decide

theorem lower_succ (c : Climb) : c.lower + 1 = c.upper := by
  cases c <;> rfl

theorem upper_lt_operandFloor (c : Climb) : c.upper < c.operandFloor := by
  cases c <;> decide

/-! ## Rows of one level -/

theorem fold_concat (c : Climb) (t : Shape) (steps : List Step) (s : Step) :
    c.fold t (steps ++ [s]) = .node c.wrapper [c.fold t steps, .token s.operator, s.operand] := by
  rw [fold, List.foldl_append]
  rfl

theorem Chain.of_operand (h : operand t w) : c.Chain p operand t w := by
  rw [← List.append_nil w]
  show c.Chain p operand (c.fold t []) (w ++ List.flatMap Step.tokens [])
  exact .intro h fun s hs => (List.not_mem_nil hs).elim

/-- A row takes one more operand at its end. -/
theorem Chain.concat (h : c.Chain p operand t v) (hk : c.precedence k = some p)
    (hu : operand u w) : c.Chain p operand (.node c.wrapper [t, .token k, u]) (v ++ k :: w) := by
  cases h with
  | @intro t v steps first rest =>
    have hword : v ++ steps.flatMap Step.tokens ++ k :: w =
        v ++ (steps ++ [Step.mk k u w]).flatMap Step.tokens := by
      rw [List.flatMap_append, List.flatMap_singleton, Step.tokens, List.append_assoc]
    rw [hword, ← c.fold_concat t steps ⟨k, u, w⟩]
    refine .intro first fun s hs => ?_
    rcases List.mem_append.mp hs with hs | hs
    · exact rest s hs
    · rw [List.mem_singleton.mp hs]
      exact ⟨hk, hu⟩

theorem Chain.mono (h : c.Chain p operand t w) (hop : ∀ t w, operand t w → operand' t w) :
    c.Chain p operand' t w := by
  cases h with
  | intro first rest =>
    exact .intro (hop _ _ first) fun s hs => ⟨(rest s hs).1, hop _ _ (rest s hs).2⟩

/-- Steps behind an expression of their level make another one. -/
theorem groups_fold {steps : List Step} (ht : Groups c.rule p t v)
    (rest : ∀ s ∈ steps,
      c.precedence s.operator = some p ∧ Groups c.rule (p + 1) s.operand s.word) :
    Groups c.rule p (c.fold t steps) (v ++ steps.flatMap Step.tokens) := by
  induction steps generalizing t v with
  | nil =>
    rw [List.flatMap_nil, List.append_nil]
    exact ht
  | cons s steps ih =>
    obtain ⟨hk, hs⟩ := rest s List.mem_cons_self
    rw [List.flatMap_cons, ← List.append_assoc]
    exact ih (.binary hk (Nat.le_refl p) ht hs) fun s' hs' => rest s' (List.mem_cons_of_mem s hs')

end Climb

open Climb

variable {c : Climb} {p : Nat} {t : Shape} {w : List Kind}

/-- **A level is a row of the next one**, folded to the left. -/
theorem groups_chain_iff : Groups c.rule p t w ↔ c.Chain p (Groups c.rule (p + 1)) t w := by
  constructor
  · intro h
    refine h.induction_on (motive := fun p t w => c.Chain p (Groups c.rule (p + 1)) t w)
      (fun p t w h => .of_operand (h _)) (fun p k q a b v x hk hpq ha hb iha _ => ?_)
    -- The left operand of an operator of the level is an expression of the level again.
    rcases Nat.eq_or_lt_of_le hpq with rfl | hlt
    · exact iha.concat hk hb
    · exact .of_operand (.binary hk hlt ha hb)
  · intro h
    cases h with
    | intro first rest => exact groups_fold (first.mono (Nat.le_succ p)) rest

/-- Below the lowest level there are no operators. -/
theorem groups_lower_iff : Groups c.rule 0 t w ↔ Groups c.rule c.lower t w := by
  constructor
  · intro h
    rcases h.forall_or_binary with h | ⟨k, q, a, b, v, x, hk, -, rfl, rfl, ha, hb⟩
    · exact h _
    · refine .binary hk ?_ ha hb
      have hlower := lower_succ c
      rcases precedence_eq hk with rfl | rfl <;> omega
  · exact fun h => h.mono (Nat.zero_le _)

/-- An operand stands over every floor. -/
theorem Climb.Operand.groups (h : c.Operand t w) (f : Nat) : Groups c.rule f t w := by
  induction h generalizing f with
  | signed hk _ ih => exact .signed hk (ih _)
  | plain hl ho hr h =>
    rw [← hr]
    exact .of_alternative (.plain hl ho) h

/-- Above the highest level there are operands only. -/
theorem groups_operand_iff : Groups c.rule (c.upper + 1) t w ↔ c.Operand t w := by
  constructor
  · intro h
    induction hn : w.length using Nat.strongRecOn generalizing t w with
    | ind n ih =>
      obtain ⟨l, body, us, ha, hl, rfl, hrow⟩ := groups_iff.mp h
      cases ha with
      | signed d hk =>
        obtain rfl := rule_injective (d.rule_signed.symm.trans hl)
        obtain ⟨_, _, rfl, rfl, htail⟩ := hrow.cons_token_inv
        obtain ⟨u, _, v, _, rfl, rfl, hu, hnil⟩ := htail.cons_rule_inv
        cases hnil
        have hlen : v.length < n := by
          subst hn
          simp
        rw [List.append_nil]
        exact .signed hk (ih _ hlen (hu.mono d.upper_lt_operandFloor) rfl)
      | binary d hk hf =>
        obtain rfl := rule_injective (d.rule_wrapper.symm.trans hl)
        -- No binary operator is as strong as this.
        have hlower := lower_succ d
        rcases precedence_eq hk with rfl | rfl <;> omega
      | plain hprod ho => exact .plain hprod ho hl hrow
  · exact fun h => h.groups _

/-- **The stratified expressions are those built by the levels.** -/
theorem groups_levels_iff : Groups c.rule 0 t w ↔ c.Levels t w := by
  rw [groups_lower_iff, groups_chain_iff, lower_succ]
  constructor
  · intro h
    refine h.mono fun t w h => ?_
    exact (groups_chain_iff.mp h).mono fun t w => groups_operand_iff.mp
  · intro h
    refine h.mono fun t w h => ?_
    exact groups_chain_iff.mpr (h.mono fun t w => groups_operand_iff.mpr)

end PipeQuery

import PipeQuery.Proofs.Grammar.Words
import PipeQuery.Proofs.Tree.Shape

/-!
# The stratified grammar

The rules of logical and of arithmetic expressions are ambiguous. The stratified grammar has the
same words, but its symbols carry a floor: an expression over a floor has no operator below it
outside its own operands. A binary operator of precedence `p` takes a left operand over `p` and a
right operand over `p + 1`, so that equal operators group to the left; the operand of a prefix
operator stands over a floor that no binary operator reaches.

For logical expressions floor 1 is the level of `or`, floor 2 that of `and`, and what is above
them is the level of `not`; for arithmetic the levels are sums, products and signed operands.

## Main definitions

* `Climb`: the two rules with operators, and what their operators are
* `Goal`, `Alternative`: symbols over floors, and the alternatives of the stratified grammar
* `Stratified`, `Groups`: the trees and the words that a row of goals, or a single rule, stands for

## Main results

* `Stratified.derives`: a stratified word is a word of the grammar
* `Derives.exists_stratified`: every word of the grammar is stratified
-/

namespace PipeQuery

open Token (Kind)

/-- The highest floor over which a rule is read. -/
def Rule.highestFloor : Rule → Nat
  | .booleanExpression => Precedence.booleanMax
  | .operatorExpression => Precedence.operatorMax
  | _ => 0

/-- The rules with binary and prefix operators. -/
inductive Climb where
  | logical
  | arithmetic
deriving DecidableEq

namespace Climb

/-- The rule of the expressions. -/
def rule : Climb → Rule
  | logical => .booleanExpression
  | arithmetic => .operatorExpression

/-- The precedence of a binary operator. -/
def precedence : Climb → Kind → Option Nat
  | logical => Kind.logicalPrecedence
  | arithmetic => Kind.arithmeticPrecedence

/-- The label of an expression with a binary operator. -/
def wrapper : Climb → Label
  | logical => .logicalBinary
  | arithmetic => .arithmeticBinary

/-- The prefix operators. -/
def signs : Climb → List Kind
  | logical => [.notWord]
  | arithmetic => [.plus, .minus]

/-- The label of an expression with a prefix operator. -/
def signed : Climb → Label
  | logical => .logicalNot
  | arithmetic => .arithmeticUnary

/-- The floor of the operand of a prefix operator. -/
def operandFloor : Climb → Nat
  | logical => Precedence.notOperand
  | arithmetic => Precedence.unaryOperand

instance decidableForall (p : Climb → Prop) [DecidablePred p] : Decidable (∀ c, p c) :=
  decidable_of_iff (p logical ∧ p arithmetic)
    ⟨fun h c => match c with | logical => h.1 | arithmetic => h.2, fun h => ⟨h _, h _⟩⟩

@[simp]
theorem rule_wrapper (c : Climb) : c.wrapper.rule = c.rule := by cases c <;> rfl

@[simp]
theorem rule_signed (c : Climb) : c.signed.rule = c.rule := by cases c <;> rfl

theorem rule_injective {c d : Climb} (h : c.rule = d.rule) : c = d := by
  cases c <;> cases d <;> first | rfl | cases h

/-- No operator reaches the floor of the operand of a prefix operator. -/
theorem precedence_lt_operandFloor {c : Climb} {k : Kind} {p : Nat}
    (h : c.precedence k = some p) : p < c.operandFloor := by
  cases c <;> cases k <;> cases h <;> decide

theorem mem_follow {c : Climb} {k : Kind} {p : Nat} (h : c.precedence k = some p) :
    k ∈ c.rule.follow := by
  cases c <;> cases k <;> cases h <;> decide

theorem succ_le_highestFloor {c : Climb} {k : Kind} {p : Nat} (h : c.precedence k = some p) :
    p + 1 ≤ c.rule.highestFloor := by
  cases c <;> cases k <;> cases h <;> decide

theorem operandFloor_le_highestFloor (c : Climb) : c.operandFloor ≤ c.rule.highestFloor := by
  cases c <;> decide

theorem rule_ne_query (c : Climb) : c.rule ≠ .query := by
  cases c <;> decide

end Climb

/-- A symbol, and the floor over which it is to stand. The floor of a token is of no account. -/
structure Goal where
  symbol : Symbol
  floor : Nat := 0
deriving DecidableEq

/-- Symbols over the lowest floor. -/
def ground (ss : List Symbol) : List Goal := ss.map (⟨·, 0⟩)

@[simp]
theorem ground_append (ss ts : List Symbol) : ground (ss ++ ts) = ground ss ++ ground ts :=
  List.map_append

@[simp]
theorem ground_cons (s : Symbol) (ss : List Symbol) : ground (s :: ss) = ⟨s, 0⟩ :: ground ss := rfl

@[simp]
theorem ground_nil : ground [] = [] := rfl

@[simp]
theorem map_symbol_ground (ss : List Symbol) : (ground ss).map Goal.symbol = ss := by
  simp [ground, Function.comp_def]

/-- Whether a label stands for an operator with its operands. -/
def Label.isOperation (l : Label) : Bool :=
  [Label.logicalNot, .logicalBinary, .arithmeticUnary, .arithmeticBinary].contains l

/-- The alternatives of the stratified grammar over a floor. -/
inductive Alternative : Nat → Label → List Goal → Prop where
  | signed (c : Climb) {floor : Nat} {k : Kind} (hk : k ∈ c.signs) :
    Alternative floor c.signed [⟨.token k, 0⟩, ⟨.rule c.rule, c.operandFloor⟩]
  | binary (c : Climb) {floor p : Nat} {k : Kind} (hk : c.precedence k = some p)
    (hf : floor ≤ p) :
    Alternative floor c.wrapper [⟨.rule c.rule, p⟩, ⟨.token k, 0⟩, ⟨.rule c.rule, p + 1⟩]
  | plain {floor : Nat} {l : Label} {body : List Symbol} (h : Production l body)
    (hl : l.isOperation = false) : Alternative floor l (ground body)

/-- The trees and the words that a row of goals stands for. -/
inductive Stratified : List Goal → List Shape → List Kind → Prop where
  | nil : Stratified [] [] []
  | token {k : Kind} {f : Nat} {gs : List Goal} {ts : List Shape} {w : List Kind}
    (h : Stratified gs ts w) : Stratified (⟨.token k, f⟩ :: gs) (.token k :: ts) (k :: w)
  | rule {f : Nat} {l : Label} {body gs : List Goal} {us ts : List Shape} {v w : List Kind}
    (ha : Alternative f l body) (hv : Stratified body us v) (hw : Stratified gs ts w) :
    Stratified (⟨.rule l.rule, f⟩ :: gs) (.node l us :: ts) (v ++ w)

/-- The tree that groups a word as a rule over a floor. -/
def Groups (r : Rule) (floor : Nat) (t : Shape) (w : List Kind) : Prop :=
  Stratified [⟨.rule r, floor⟩] [t] w

/-! ## Alternatives -/

namespace Climb

theorem wrapper_injective {c d : Climb} (h : c.wrapper = d.wrapper) : c = d := by
  cases c <;> cases d <;> first | rfl | cases h

theorem signed_injective {c d : Climb} (h : c.signed = d.signed) : c = d := by
  cases c <;> cases d <;> first | rfl | cases h

theorem signed_ne_wrapper (c d : Climb) : c.signed ≠ d.wrapper := by
  cases c <;> cases d <;> decide

@[simp]
theorem isOperation_wrapper (c : Climb) : c.wrapper.isOperation = true := by
  cases c <;> rfl

@[simp]
theorem isOperation_signed (c : Climb) : c.signed.isOperation = true := by
  cases c <;> rfl

end Climb

theorem Alternative.production {f : Nat} {l : Label} {body : List Goal}
    (h : Alternative f l body) : Production l (body.map Goal.symbol) := by
  cases h with
  | signed c hk =>
    cases c
    · rw [List.mem_singleton.mp hk]; exact .logicalNot
    · exact .arithmeticUnary hk
  | @binary c _ p k hk =>
    cases c
    · exact .logicalBinary (by cases k <;> first | decide | cases hk)
    · exact .arithmeticBinary (by cases k <;> first | decide | cases hk)
  | plain h => rwa [map_symbol_ground]

/-- Apart from the operators, the alternatives are those of the grammar. -/
theorem Alternative.of_production {f : Nat} {l : Label} {ss : List Symbol} (h : Production l ss)
    (hl : l.isOperation = false := by rfl) : Alternative f l (ground ss) :=
  .plain h hl

/-- An alternative is one over each lower floor. -/
theorem Alternative.mono {f g : Nat} {l : Label} {body : List Goal} (h : Alternative f l body)
    (hg : g ≤ f) : Alternative g l body := by
  cases h with
  | signed c hk => exact .signed c hk
  | binary c hk hf => exact .binary c hk (Nat.le_trans hg hf)
  | plain h hl => exact .plain h hl

/-- An alternative is one over every floor, or it has a binary operator. -/
theorem Alternative.forall_or_binary {f : Nat} {l : Label} {body : List Goal}
    (h : Alternative f l body) :
    (∀ g, Alternative g l body) ∨ ∃ (c : Climb) (k : Kind) (p : Nat), c.precedence k = some p ∧
      f ≤ p ∧ l = c.wrapper ∧
      body = [⟨.rule c.rule, p⟩, ⟨.token k, 0⟩, ⟨.rule c.rule, p + 1⟩] := by
  cases h with
  | signed c hk => exact .inl fun _ => .signed c hk
  | binary c hk hf => exact .inr ⟨c, _, _, hk, hf, rfl, rfl⟩
  | plain h hl => exact .inl fun _ => .plain h hl

/-- The alternative of a binary operator. -/
theorem Alternative.wrapper_inv {c : Climb} {f : Nat} {body : List Goal}
    (h : Alternative f c.wrapper body) :
    ∃ k p, c.precedence k = some p ∧ f ≤ p ∧
      body = [⟨.rule c.rule, p⟩, ⟨.token k, 0⟩, ⟨.rule c.rule, p + 1⟩] := by
  generalize hl : c.wrapper = l at h
  cases h with
  | signed d hk => exact absurd hl.symm (d.signed_ne_wrapper c)
  | binary d hk hf =>
    obtain rfl := Climb.wrapper_injective hl
    exact ⟨_, _, hk, hf, rfl⟩
  | plain _ ho =>
    rw [← hl, c.isOperation_wrapper] at ho
    cases ho

/-- The alternative of a prefix operator. -/
theorem Alternative.signed_inv {c : Climb} {f : Nat} {body : List Goal}
    (h : Alternative f c.signed body) :
    ∃ k ∈ c.signs, body = [⟨.token k, 0⟩, ⟨.rule c.rule, c.operandFloor⟩] := by
  generalize hl : c.signed = l at h
  cases h with
  | signed d hk =>
    obtain rfl := Climb.signed_injective hl
    exact ⟨_, hk, rfl⟩
  | binary d => exact absurd hl (c.signed_ne_wrapper d)
  | plain _ ho =>
    rw [← hl, c.isOperation_signed] at ho
    cases ho

/-- The operand of a prefix operator has no binary one. -/
theorem Alternative.ne_wrapper {c : Climb} {l : Label} {body : List Goal}
    (h : Alternative c.operandFloor l body) : l ≠ c.wrapper := by
  rintro rfl
  obtain ⟨k, p, hk, hf, -⟩ := h.wrapper_inv
  have hlt := Climb.precedence_lt_operandFloor hk
  omega

/-- The tree of an expression has no binary operator below a floor at its top. -/
def Shape.Over (c : Climb) (floor : Nat) (t : Shape) : Prop :=
  ∀ a k b p, t = .node c.wrapper [a, .token k, b] → c.precedence k = some p → floor ≤ p

/-! ## Rows of goals -/

/-- A stratified word is a word of the grammar. -/
theorem Stratified.derives {gs : List Goal} {ts : List Shape} {w : List Kind}
    (h : Stratified gs ts w) : Derives (gs.map Goal.symbol) w := by
  induction h with
  | nil => exact .nil
  | token _ ih => exact .token ih
  | rule ha _ _ ihv ihw => exact .rule ha.production ihv ihw

theorem Stratified.append {gs hs : List Goal} {ts us : List Shape} {v w : List Kind}
    (hv : Stratified gs ts v) (hw : Stratified hs us w) :
    Stratified (gs ++ hs) (ts ++ us) (v ++ w) := by
  induction hv with
  | nil => exact hw
  | token _ ih => exact .token ih
  | rule ha hbody _ _ ih => rw [List.append_assoc]; exact .rule ha hbody ih

theorem Stratified.cons_token_inv {k : Kind} {f : Nat} {gs : List Goal} {ts : List Shape}
    {w : List Kind} (h : Stratified (⟨.token k, f⟩ :: gs) ts w) :
    ∃ us v, ts = .token k :: us ∧ w = k :: v ∧ Stratified gs us v := by
  cases h with
  | token h => exact ⟨_, _, rfl, rfl, h⟩

theorem Stratified.cons_rule_inv {r : Rule} {f : Nat} {gs : List Goal} {ts : List Shape}
    {w : List Kind} (h : Stratified (⟨.rule r, f⟩ :: gs) ts w) :
    ∃ t us v x, ts = t :: us ∧ w = v ++ x ∧ Groups r f t v ∧ Stratified gs us x := by
  cases h with
  | rule ha hv hw =>
    exact ⟨_, _, _, _, rfl, rfl, by simpa [Groups] using Stratified.rule ha hv .nil, hw⟩

theorem Groups.cons {r : Rule} {f : Nat} {t : Shape} {gs : List Goal} {ts : List Shape}
    {v w : List Kind} (hv : Groups r f t v) (hw : Stratified gs ts w) :
    Stratified (⟨.rule r, f⟩ :: gs) (t :: ts) (v ++ w) :=
  Stratified.append hv hw

theorem Groups.of_alternative {f : Nat} {l : Label} {body : List Goal} {us : List Shape}
    {w : List Kind} (ha : Alternative f l body) (h : Stratified body us w) :
    Groups l.rule f (.node l us) w := by
  simpa [Groups] using Stratified.rule ha h .nil

theorem groups_iff {r : Rule} {f : Nat} {t : Shape} {w : List Kind} :
    Groups r f t w ↔ ∃ l body us, Alternative f l body ∧ l.rule = r ∧ t = .node l us ∧
      Stratified body us w := by
  constructor
  · intro h
    cases h with
    | rule ha hv hw =>
      cases hw
      exact ⟨_, _, _, ha, rfl, rfl, by rwa [List.append_nil]⟩
  · rintro ⟨l, body, us, ha, rfl, rfl, h⟩
    exact .of_alternative ha h

/-- What stands over a floor stands over each lower one. -/
theorem Groups.mono {r : Rule} {f g : Nat} {t : Shape} {w : List Kind} (h : Groups r f t w)
    (hg : g ≤ f) : Groups r g t w := by
  obtain ⟨l, body, us, ha, hl, ht, hw⟩ := groups_iff.mp h
  exact groups_iff.mpr ⟨l, body, us, ha.mono hg, hl, ht, hw⟩

theorem Groups.derives {r : Rule} {f : Nat} {t : Shape} {w : List Kind} (h : Groups r f t w) :
    Derives [.rule r] w :=
  Stratified.derives h

/-! ## Levels of operators -/

section Levels

variable {c : Climb}

/-- What is grouped over a floor has no binary operator below it at its top. -/
theorem Groups.over {f : Nat} {t : Shape} {w : List Kind} (h : Groups c.rule f t w) :
    t.Over c f := by
  rintro a k b p rfl hp
  obtain ⟨l, body, us, ha, -, hnode, hrow⟩ := groups_iff.mp h
  obtain ⟨rfl, rfl⟩ := Shape.node.inj hnode
  obtain ⟨k', q, hk, hf, rfl⟩ := ha.wrapper_inv
  obtain ⟨_, _, _, _, hus, -, -, htail⟩ := hrow.cons_rule_inv
  obtain ⟨rfl, rfl⟩ := List.cons.inj hus
  obtain ⟨_, _, hts, -, -⟩ := htail.cons_token_inv
  obtain rfl := Shape.token.inj (List.cons.inj hts).1
  obtain rfl := Option.some.inj (hk.symm.trans hp)
  exact hf

/-- Two expressions around an operator, the left one over its level and the right one above it. -/
theorem Groups.binary {f p : Nat} {k : Kind} {t u : Shape} {v w : List Kind}
    (hk : c.precedence k = some p) (hf : f ≤ p) (ht : Groups c.rule p t v)
    (hu : Groups c.rule (p + 1) u w) :
    Groups c.rule f (.node c.wrapper [t, .token k, u]) (v ++ k :: w) := by
  rw [← c.rule_wrapper]
  exact .of_alternative (.binary c hk hf) (ht.cons (.token hu))

/-- A prefix operator before an expression that has no binary one. -/
theorem Groups.signed {f : Nat} {k : Kind} {t : Shape} {w : List Kind} (hk : k ∈ c.signs)
    (ht : Groups c.rule c.operandFloor t w) :
    Groups c.rule f (.node c.signed [.token k, t]) (k :: w) := by
  rw [← c.rule_signed]
  exact .of_alternative (.signed c hk) (.token ht)

/-- An expression stands over every floor, or it has a binary operator, with its left operand over
the operator's precedence and its right operand above it. -/
theorem Groups.forall_or_binary {f : Nat} {t : Shape} {w : List Kind}
    (h : Groups c.rule f t w) :
    (∀ g, Groups c.rule g t w) ∨ ∃ k p a b v x, c.precedence k = some p ∧ f ≤ p ∧
      t = .node c.wrapper [a, .token k, b] ∧ w = v ++ k :: x ∧ Groups c.rule p a v ∧
      Groups c.rule (p + 1) b x := by
  obtain ⟨l, body, us, ha, hl, rfl, hw⟩ := groups_iff.mp h
  rcases ha.forall_or_binary with ha | ⟨d, k, p, hk, hf, rfl, rfl⟩
  · exact .inl fun g => groups_iff.mpr ⟨l, body, us, ha g, hl, rfl, hw⟩
  · obtain rfl := Climb.rule_injective (d.rule_wrapper.symm.trans hl)
    obtain ⟨a, _, v, _, rfl, rfl, hav, htail⟩ := hw.cons_rule_inv
    obtain ⟨_, _, rfl, rfl, hright⟩ := htail.cons_token_inv
    obtain ⟨b, _, x, _, rfl, rfl, hbx, hnil⟩ := hright.cons_rule_inv
    cases hnil
    exact .inr ⟨k, p, a, b, v, x, hk, hf, rfl, by rw [List.append_nil], hav, hbx⟩

/-- **Induction on the binary operators of an expression**, from its operands outwards. -/
theorem Groups.induction_on {motive : Nat → Shape → List Kind → Prop} {f : Nat} {t : Shape}
    {w : List Kind} (h : Groups c.rule f t w)
    (operand : ∀ f t w, (∀ g, Groups c.rule g t w) → motive f t w)
    (binary : ∀ f k p a b v x, c.precedence k = some p → f ≤ p → Groups c.rule p a v →
      Groups c.rule (p + 1) b x → motive p a v → motive (p + 1) b x →
      motive f (.node c.wrapper [a, .token k, b]) (v ++ k :: x)) : motive f t w := by
  induction hn : w.length using Nat.strongRecOn generalizing f t w with
  | ind n ih =>
    rcases h.forall_or_binary with h | ⟨k, p, a, b, v, x, hk, hf, rfl, rfl, ha, hb⟩
    · exact operand f t w h
    · rw [List.length_append, List.length_cons] at hn
      exact binary f k p a b v x hk hf ha hb (ih v.length (by omega) ha rfl)
        (ih x.length (by omega) hb rfl)

/-! ## Every word is stratified -/

/-- One more operand at the end of an expression finds its place on the right spine. -/
theorem Groups.exists_extend {f p : Nat} {k : Kind} {t u : Shape} {v w : List Kind}
    (hk : c.precedence k = some p) (hf : f ≤ p) (ht : Groups c.rule f t v)
    (hu : Groups c.rule c.operandFloor u w) : ∃ t', Groups c.rule f t' (v ++ k :: w) := by
  have hu := hu.mono (Climb.precedence_lt_operandFloor hk)
  refine ht.induction_on (motive := fun f _ v => f ≤ p → ∃ t', Groups c.rule f t' (v ++ k :: w))
    (fun f t v ht hf => ?_) (fun f k' q a b x y hk' hq ha hb _ ihb hf => ?_) hf
  · exact ⟨_, .binary hk hf (ht p) hu⟩
  · by_cases hle : p ≤ q
    · exact ⟨_, .binary hk hf (.binary hk' hle ha hb) hu⟩
    · -- The new operator binds tighter, so its left operand is the right one of the old.
      obtain ⟨b', hb'⟩ := ihb (by omega)
      rw [List.append_assoc, List.cons_append]
      exact ⟨_, .binary hk' hq ha hb'⟩

/-- A prefix operator before an expression goes to its first operand. -/
theorem Groups.exists_signed {f : Nat} {k : Kind} {t : Shape} {w : List Kind} (hk : k ∈ c.signs)
    (ht : Groups c.rule f t w) : ∃ t', Groups c.rule f t' (k :: w) := by
  refine ht.induction_on (motive := fun f _ w => ∃ t', Groups c.rule f t' (k :: w))
    (fun f t w ht => ?_) (fun f k' q a b x y hk' hq _ hb iha _ => ?_)
  · exact ⟨_, .signed hk (ht _)⟩
  · obtain ⟨a', ha'⟩ := iha
    exact ⟨_, .binary hk' hq ha' hb⟩

/-- Two expressions around an operator are grouped anew, one operand of the right one after the
other. -/
theorem Groups.exists_join {p : Nat} {k : Kind} {t u : Shape} {v w : List Kind}
    (hk : c.precedence k = some p) (ht : Groups c.rule 0 t v) (hu : Groups c.rule 0 u w) :
    ∃ t', Groups c.rule 0 t' (v ++ k :: w) := by
  refine hu.induction_on (motive := fun _ _ w => ∀ k p t v, c.precedence k = some p →
      Groups c.rule 0 t v → ∃ t', Groups c.rule 0 t' (v ++ k :: w))
    (fun f u w hu k p t v hk ht => ?_) (fun f k' q a b x y hk' _ _ _ iha ihb k p t v hk ht => ?_)
    k p t v hk ht
  · exact ht.exists_extend hk (Nat.zero_le p) (hu _)
  · obtain ⟨t₁, ht₁⟩ := iha k p t v hk ht
    obtain ⟨t₂, ht₂⟩ := ihb k' q t₁ _ hk' ht₁
    exact ⟨t₂, by simpa using ht₂⟩

end Levels

theorem Derives.exists_groups_of_operation {l : Label} {body : List Symbol} {ts : List Shape}
    {w : List Kind} (hl : Production l body) (ho : l.isOperation = true)
    (h : Stratified (ground body) ts w) : ∃ t, Groups l.rule 0 t w := by
  have signed (c : Climb) {k : Kind} (hk : k ∈ c.signs) {ts : List Shape} {w : List Kind}
      (hrow : Stratified [⟨.token k, 0⟩, ⟨.rule c.rule, 0⟩] ts w) : ∃ t, Groups c.rule 0 t w := by
    obtain ⟨_, _, rfl, rfl, htail⟩ := hrow.cons_token_inv
    obtain ⟨t, _, x, _, rfl, rfl, ht, hnil⟩ := htail.cons_rule_inv
    cases hnil
    simpa using ht.exists_signed hk
  have binary (c : Climb) {k : Kind} {p : Nat} (hk : c.precedence k = some p) {ts : List Shape}
      {w : List Kind}
      (hrow : Stratified [⟨.rule c.rule, 0⟩, ⟨.token k, 0⟩, ⟨.rule c.rule, 0⟩] ts w) :
      ∃ t, Groups c.rule 0 t w := by
    obtain ⟨a, _, v, _, rfl, rfl, ha, htail⟩ := hrow.cons_rule_inv
    obtain ⟨_, _, rfl, rfl, hright⟩ := htail.cons_token_inv
    obtain ⟨b, _, x, _, rfl, rfl, hb, hnil⟩ := hright.cons_rule_inv
    cases hnil
    simpa using ha.exists_join hk hb
  -- Each operation is one of the two climbs with its own operators.
  cases hl with
  | logicalNot => exact signed .logical (by decide) h
  | arithmeticUnary hk => exact signed .arithmetic hk h
  | @logicalBinary k hk =>
    obtain ⟨p, hp⟩ : ∃ p, Climb.logical.precedence k = some p := by
      cases k <;> first | exact ⟨_, rfl⟩ | exact absurd hk (by decide)
    exact binary .logical hp h
  | @arithmeticBinary k hk =>
    obtain ⟨p, hp⟩ : ∃ p, Climb.arithmetic.precedence k = some p := by
      cases k <;> first | exact ⟨_, rfl⟩ | exact absurd hk (by decide)
    exact binary .arithmetic hp h
  | _ => exact absurd ho (by decide)

/-- **Every word of the grammar is stratified.** -/
theorem Derives.exists_stratified {ss : List Symbol} {w : List Kind} (h : Derives ss w) :
    ∃ ts, Stratified (ground ss) ts w := by
  induction h with
  | nil => exact ⟨[], .nil⟩
  | token _ ih =>
    obtain ⟨ts, h⟩ := ih
    exact ⟨_, .token h⟩
  | @rule l _ _ _ _ hl _ _ ihv ihw =>
    obtain ⟨us, hv⟩ := ihv
    obtain ⟨ts, hw⟩ := ihw
    cases ho : l.isOperation with
    | false => exact ⟨_, .rule (.plain hl ho) hv hw⟩
    | true =>
      obtain ⟨t, ht⟩ := Derives.exists_groups_of_operation hl ho hv
      exact ⟨_, ht.cons hw⟩

end PipeQuery

import PipeQuery.Parser.Source
import PipeQuery.Proofs.Grammar.Levels
import PipeQuery.Proofs.Parser.ValidTrees

/-!
# Precedence and associativity

In a valid tree no operator has an operand with an operator that binds less tightly, and operators
that bind alike stand one below the other to the left. Each expression of a valid tree is the one
that the levels of its operators build of its tokens, and there is only one.

## Main definitions

* `ParseTree.Stands`: a node that is grouped as a rule over a floor
* `ParseTree.precedence?`: how tightly the binary operator of a node binds
* `ParseTree.Climbs`: a node whose operands are of the levels they have to be
* `ParseTree.Compares`: a node with a comparison operator between two operands

## Main results

* `isValid_levels`: all nodes of all valid trees, and the trees of all expressions
-/

namespace PipeQuery

open Token (Kind)

/-! ## Alternatives and levels -/

theorem Alternative.comparison_inv {f : Nat} {body : List Goal}
    (h : Alternative f .comparison body) :
    body = ground
      [.rule .operatorExpression, .rule .comparisonOperator, .rule .operatorExpression] := by
  generalize hl : Label.comparison = l at h
  cases h with
  | signed c | binary c => cases c <;> cases hl
  | plain hprod =>
    cases hprod <;> cases hl
    rfl

theorem Alternative.comparisonOperator_inv {f : Nat} {l : Label} {body : List Goal}
    (h : Alternative f l body) (hl : l.rule = .comparisonOperator) :
    ∃ k ∈ comparisonOperators.toList, body = ground [.token k] := by
  cases h with
  | signed c | binary c => cases c <;> cases hl
  | plain hprod =>
    cases hprod <;> cases hl
    exact ⟨_, ‹_›, rfl⟩

/-- What the levels build of a word is one tree. -/
theorem Climb.levels_iff_eq {c : Climb} {s s' : Shape} {w : List Kind} (h : c.Levels s w) :
    c.Levels s' w ↔ s' = s := by
  have hcloses : Parser.Closes c.rule 0 .endOfInput := by cases c <;> decide
  constructor
  · intro h'
    exact Parser.Groups.unique (groups_levels_iff.mpr h') (groups_levels_iff.mpr h) hcloses
  · rintro rfl
    exact h

namespace ParseTree

section Definitions

variable (t : ParseTree)

/-- A node that is grouped as a rule over a floor. -/
def Stands (r : Rule) (floor : Nat) (id : NodeId) : Prop :=
  t.rule id = r ∧ ∃ body, Alternative floor (t.label id) body ∧ t.Follows body (t.children id)

/-- The precedence of the binary operator of a node. -/
def precedence? (c : Climb) (id : NodeId) : Option Nat :=
  if t.label id = c.wrapper then (t.firstToken? id).bind fun k => c.precedence k.kind else none

/-- A node whose operands are of the levels they have to be, if it has an operator; and that is
what the levels build of its tokens, if it is an expression. -/
structure Climbs (c : Climb) (id : NodeId) : Prop where
  binary : t.label id = c.wrapper → ∃ l i r p, t.children id = [.node l, .token i, .node r] ∧
    t.rule l = c.rule ∧ t.rule r = c.rule ∧ c.precedence (t.token i).kind = some p ∧
    (∀ q, t.precedence? c l = some q → p ≤ q) ∧ ∀ q, t.precedence? c r = some q → p < q
  signed : t.label id = c.signed → ∃ i x, t.children id = [.token i, .node x] ∧
    (t.token i).kind ∈ c.signs ∧ t.rule x = c.rule ∧ t.label x ≠ c.wrapper
  levels : t.rule id = c.rule → ∀ s, c.Levels s (t.word id) ↔ s = t.shape id

/-- A node with one comparison operator between two operands, if it is a comparison. -/
def Compares (id : NodeId) : Prop :=
  t.label id = .comparison → ∃ l o i r, t.children id = [.node l, .node o, .node r] ∧
    t.rule l = .operatorExpression ∧ t.rule r = .operatorExpression ∧
    t.children o = [.token i] ∧ (t.token i).kind ∈ comparisonOperators.toList

end Definitions

variable {t : ParseTree} {c : Climb} {id : NodeId} {r : Rule} {f p q : Nat} {k : Kind}
  {gs : List Goal} {ss : List Slot}

/-! ## Rows of children -/

theorem Follows.nil_inv (h : t.Follows [] ss) : ss = [] := by
  cases h
  rfl

theorem Follows.cons_token_inv (h : t.Follows (⟨.token k, f⟩ :: gs) ss) :
    ∃ i rest, ss = .token i :: rest ∧ (t.token i).kind = k ∧ t.Follows gs rest := by
  cases h with
  | token h => exact ⟨_, _, rfl, rfl, h⟩

theorem Follows.cons_rule_inv (h : t.Follows (⟨.rule r, f⟩ :: gs) ss) :
    ∃ id rest, ss = .node id :: rest ∧ t.Stands r f id ∧ t.Follows gs rest := by
  cases h with
  | node ha hbody h => exact ⟨_, _, rfl, ⟨rfl, _, ha, hbody⟩, h⟩

/-! ## Nodes with operators -/

/-- A node with a binary operator, its left operand over the level of the operator and its right
one above it. -/
theorem Stands.binary (h : t.Stands r f id) (hl : t.label id = c.wrapper) :
    ∃ l i r p, t.children id = [.node l, .token i, .node r] ∧
      c.precedence (t.token i).kind = some p ∧ f ≤ p ∧ t.Stands c.rule p l ∧
      t.Stands c.rule (p + 1) r := by
  obtain ⟨-, body, ha, hbody⟩ := h
  rw [hl] at ha
  obtain ⟨k, p, hk, hf, rfl⟩ := ha.wrapper_inv
  obtain ⟨l, _, hchildren, hleft, htail⟩ := hbody.cons_rule_inv
  obtain ⟨i, _, rfl, rfl, hright⟩ := htail.cons_token_inv
  obtain ⟨r, _, rfl, hr, hnil⟩ := hright.cons_rule_inv
  rw [hnil.nil_inv] at hchildren
  exact ⟨l, i, r, p, hchildren, hk, hf, hleft, hr⟩

/-- No operator stands below the floor of its node. -/
theorem Stands.le_of_precedence? (h : t.Stands r f id) (hq : t.precedence? c id = some q) :
    f ≤ q := by
  rw [precedence?] at hq
  split at hq
  · rename_i hl
    obtain ⟨l, i, r, p, hchildren, hp, hf, -, -⟩ := h.binary hl
    have hfirst : t.firstToken? id = some (t.token i) := by
      rw [firstToken?, directTokens, hchildren]
      rfl
    rw [hfirst, Option.bind_some, hp] at hq
    obtain rfl := Option.some.inj hq
    exact hf
  · cases hq

/-- A node with a prefix operator, before an operand without a binary one. -/
theorem Stands.signed (h : t.Stands r f id) (hl : t.label id = c.signed) :
    ∃ i x, t.children id = [.token i, .node x] ∧ (t.token i).kind ∈ c.signs ∧
      t.rule x = c.rule ∧ t.label x ≠ c.wrapper := by
  obtain ⟨-, body, ha, hbody⟩ := h
  rw [hl] at ha
  obtain ⟨k, hk, rfl⟩ := ha.signed_inv
  obtain ⟨i, _, hchildren, rfl, htail⟩ := hbody.cons_token_inv
  obtain ⟨x, _, rfl, ⟨hrule, body, hx, -⟩, hnil⟩ := htail.cons_rule_inv
  rw [hnil.nil_inv] at hchildren
  exact ⟨i, x, hchildren, hk, hrule, hx.ne_wrapper⟩

theorem Stands.compares (h : t.Stands r f id) : t.Compares id := by
  intro hl
  obtain ⟨-, body, ha, hbody⟩ := h
  rw [hl] at ha
  obtain rfl := ha.comparison_inv
  obtain ⟨l, _, hchildren, hleft, htail⟩ := hbody.cons_rule_inv
  obtain ⟨o, _, rfl, ⟨ho, body, hao, hbo⟩, hright⟩ := htail.cons_rule_inv
  obtain ⟨r, _, rfl, hr, hnil⟩ := hright.cons_rule_inv
  rw [hnil.nil_inv] at hchildren
  obtain ⟨k, hk, rfl⟩ := hao.comparisonOperator_inv ho
  obtain ⟨i, _, hoperator, rfl, hend⟩ := hbo.cons_token_inv
  rw [hend.nil_inv] at hoperator
  exact ⟨l, o, i, r, hchildren, hleft.1, hr.1, hoperator, hk⟩

theorem Stands.climbs (h : t.Stands r f id) (hg : Groups (t.rule id) f (t.shape id) (t.word id)) :
    t.Climbs c id := by
  refine ⟨fun hl => ?_, h.signed, fun hrule s => Climb.levels_iff_eq ?_⟩
  · obtain ⟨l, i, r, p, hchildren, hp, -, hleft, hright⟩ := h.binary hl
    exact ⟨l, i, r, p, hchildren, hleft.1, hright.1, hp, fun q => hleft.le_of_precedence?,
      fun q => hright.le_of_precedence?⟩
  · rw [hrule] at hg
    exact groups_levels_iff.mp (hg.mono (Nat.zero_le f))

/-- Each node of a stratified tree is of the level it has to be. -/
theorem IsWhole.climbs {x : Subtree} {w : List Kind} (h : t.IsWhole x)
    (hx : Groups r f (x.shape t.tokens) w) (hid : id < t.size) :
    (∀ c, t.Climbs c id) ∧ t.Compares id := by
  obtain ⟨g, body, ha, hbody, hg⟩ := h.exists_alternative hx hid
  have hstands : t.Stands (t.rule id) g id := ⟨rfl, body, ha, hbody⟩
  exact ⟨fun c => hstands.climbs hg, hstands.compares⟩

end ParseTree

namespace Parser

variable {options : Options} {tokens : List Token} {t : ParseTree} {floor : Nat}

/-- **The tree of an expression** is what the levels build of its tokens. -/
theorem expression_levels (h : parseExpressionTokens options floor tokens = .ok t)
    (hv : t.isValid = true) :
    Climb.logical.Levels (t.shape t.root) ((TokenStream.body tokens).map Token.kind) := by
  obtain ⟨x, hx, hg⟩ := expression_groups h hv
  rw [hx.shape_root, ← TokenStream.coming_ofList]
  exact groups_levels_iff.mp (hg.mono (Nat.zero_le floor))

/-- **Precedence and associativity.** In each valid tree of whatever entry, all operators have
operands of the levels they have to have, and all comparisons two operands. The tree of an
expression is the one that the levels build of its tokens; and where they build one, it is the tree
of the expression, if enough rules may be open. -/
theorem isValid_levels (options : Options) (tokens : List Token) :
    (∀ entry t, Entry.parse options tokens entry = .ok t → t.isValid = true →
      (∀ id < t.size, (∀ c, t.Climbs c id) ∧ t.Compares id) ∧
      ∀ floor, entry = .expression floor → ∀ s,
        Climb.logical.Levels s ((TokenStream.body tokens).map Token.kind) ↔ s = t.shape t.root) ∧
    ∀ s, Climb.logical.Levels s ((TokenStream.body tokens).map Token.kind) →
      4 * (TokenStream.body tokens).length + 6 ≤ options.maxDepth →
      ∃ t, parseExpressionTokens options 0 tokens = .ok t ∧ t.isValid = true ∧
        t.shape t.root = s := by
  refine ⟨fun entry t h hv => ⟨fun id hid => ?_, ?_⟩, fun s hs hd => ?_⟩
  · cases entry with
    | statement =>
      obtain ⟨x, hx, hg⟩ := statement_groups h hv
      exact hx.climbs hg hid
    | expression floor =>
      obtain ⟨x, hx, hg⟩ := expression_groups h hv
      exact hx.climbs hg hid
  · rintro floor rfl s
    exact Climb.levels_iff_eq (expression_levels h hv)
  · have hderives := (groups_levels_iff.mpr hs).derives
    rw [← TokenStream.coming_ofList] at hderives
    have hlen : (TokenStream.ofList tokens).coming.length = (TokenStream.body tokens).length := by
      rw [TokenStream.coming_ofList, List.length_map]
    rw [← hlen] at hd
    obtain ⟨t, ht, hv⟩ := expression_accepts hd hderives
    exact ⟨t, ht, hv, ((Climb.levels_iff_eq (expression_levels ht hv)).mp hs).symm⟩

/-- In `not a or a + 1 * 1 < a and a` all operators have operands of the levels they have to have. -/
theorem isValid_levels_mixed :
    ∃ t, Entry.parse ⟨60, .recover⟩ ([Kind.notWord, .name, .orWord, .name, .plus, .integer, .star,
      .integer, .less, .name, .andWord, .name].map Token.ofKind) (.expression 0) = .ok t ∧
      t.isValid = true ∧ ∀ id < t.size, (∀ c, t.Climbs c id) ∧ t.Compares id := by
  obtain ⟨t, h, hv⟩ : ∃ t, Entry.parse ⟨60, .recover⟩ ([Kind.notWord, .name, .orWord, .name,
      .plus, .integer, .star, .integer, .less, .name, .andWord, .name].map Token.ofKind)
      (.expression 0) = .ok t ∧ t.isValid = true := by
    decide +kernel
  exact ⟨t, h, hv, ((isValid_levels ⟨60, .recover⟩ _).1 _ t h hv).1⟩

end Parser

end PipeQuery

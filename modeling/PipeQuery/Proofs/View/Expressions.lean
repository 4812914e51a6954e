import PipeQuery.Proofs.Parser.ValidTrees
import PipeQuery.Proofs.Tree.Linked
import PipeQuery.Proofs.View.Written

/-!
# What the views of expressions say

In a tree whose nodes all spell alternatives of the grammar, each view of a node says what is
written there: it finds every part that it looks for, and no other.

## Main definitions

* `ParseTree.Row`: children that stand for a row of symbols
* `ParseTree.Spelled`: a tree whose nodes all spell alternatives

## Main results

* `Row.exists_items`: a view of the items of a list says what is written at each of them
* `Spelled.booleanExpression?`, ..., `Spelled.primaryExpression?`: the views, one by one
-/

namespace PipeQuery

open Token (Kind)

/-- The node of a slot. -/
def Slot.node? : Slot → Option NodeId
  | .node c => some c
  | _ => none

@[simp]
theorem Slot.node?_node (c : NodeId) : node? (.node c) = some c := rfl

@[simp]
theorem Slot.node?_token (i : Nat) : node? (.token i) = none := rfl

namespace ParseTree

/-- Children that stand for a row of symbols. -/
inductive Row (t : ParseTree) : List Symbol → List Slot → Prop where
  | nil : Row t [] []
  | token {i : Nat} {k : Kind} {symbols : List Symbol} {slots : List Slot}
    (hi : (t.token i).kind = k) (h : Row t symbols slots) :
    Row t (.token k :: symbols) (.token i :: slots)
  | rule {c : NodeId} {r : Rule} {symbols : List Symbol} {slots : List Slot} (hc : c < t.size)
    (hr : t.rule c = r) (h : Row t symbols slots) : Row t (.rule r :: symbols) (.node c :: slots)

/-- A tree whose nodes all spell alternatives of the grammar. -/
def Spelled (t : ParseTree) : Prop :=
  ∀ id < t.size, ∃ body, Production (t.label id) body ∧ t.Row body (t.children id)

variable {t : ParseTree} {id : NodeId} {r r' : Rule} {k : Kind} {n : Nat} {slots : List Slot}
  {symbols rest : List Symbol} {α : Type} {f : NodeId → Option α} {W : NodeId → α → Prop}

/-! ## Rows of children -/

theorem row_of_map (h : slots.map t.symbol? = symbols.map some)
    (hlt : ∀ c, .node c ∈ slots → c < t.size) : t.Row symbols slots := by
  -- A dropped token stands for no symbol, so there is none in the row.
  induction slots generalizing symbols with
  | nil =>
    obtain rfl := List.map_eq_nil_iff.mp h.symm
    exact .nil
  | cons slot slots ih =>
    cases symbols with
    | nil => cases h
    | cons symbol symbols =>
      obtain ⟨hslot, hrest⟩ := List.cons.inj h
      have hrow := ih hrest fun c hc => hlt c (List.mem_cons_of_mem _ hc)
      cases slot with
      | node c =>
        cases hslot
        exact .rule (hlt c List.mem_cons_self) rfl hrow
      | token i =>
        cases hslot
        exact .token rfl hrow
      | discarded => cases hslot

theorem IsWhole.spelled {x : Subtree} (h : t.IsWhole x) (hs : ∀ id < t.size, t.Spells id) :
    t.Spelled := by
  intro id hid
  obtain ⟨body, hbody, hc⟩ := hs id hid
  exact ⟨body, hbody, row_of_map hc fun c hchild => (h.parent_eq hchild).1⟩

theorem Row.nil_inv (h : t.Row [] slots) : slots = [] := by
  cases h
  rfl

theorem Row.cons_token_inv (h : t.Row (.token k :: symbols) slots) :
    ∃ i rest, slots = .token i :: rest ∧ (t.token i).kind = k ∧ t.Row symbols rest := by
  cases h with
  | token hi h => exact ⟨_, _, rfl, hi, h⟩

theorem Row.cons_rule_inv (h : t.Row (.rule r :: symbols) slots) :
    ∃ c rest, slots = .node c :: rest ∧ c < t.size ∧ t.rule c = r ∧ t.Row symbols rest := by
  cases h with
  | rule hc hr h => exact ⟨_, _, rfl, hc, hr, h⟩

/-- The rule of a child stands in the row. -/
theorem Row.rule_mem {c : NodeId} (h : t.Row symbols slots) (hc : .node c ∈ slots) :
    .rule (t.rule c) ∈ symbols := by
  induction h with
  | nil => exact absurd hc List.not_mem_nil
  | token _ _ ih =>
    rcases List.mem_cons.mp hc with hc | hc
    · cases hc
    · exact List.mem_cons_of_mem _ (ih hc)
  | rule _ hr _ ih =>
    rcases List.mem_cons.mp hc with hc | hc
    · cases hc
      rw [hr]
      exact List.mem_cons_self
    · exact List.mem_cons_of_mem _ (ih hc)

theorem Row.token_inv (h : t.Row [.token k] slots) :
    ∃ i, slots = [.token i] ∧ (t.token i).kind = k := by
  obtain ⟨i, _, rfl, hi, h⟩ := h.cons_token_inv
  exact ⟨i, by rw [h.nil_inv], hi⟩

theorem Row.rule_inv (h : t.Row [.rule r] slots) :
    ∃ c, slots = [.node c] ∧ c < t.size ∧ t.rule c = r := by
  obtain ⟨c, _, rfl, hc, hr, h⟩ := h.cons_rule_inv
  exact ⟨c, by rw [h.nil_inv], hc, hr⟩

/-- A token before a node: a sign and its operand, or a keyword and what it is about. -/
theorem Row.prefix_inv (h : t.Row [.token k, .rule r] slots) :
    ∃ i c, slots = [.token i, .node c] ∧ (t.token i).kind = k ∧ c < t.size ∧ t.rule c = r := by
  obtain ⟨i, _, rfl, hi, h⟩ := h.cons_token_inv
  obtain ⟨c, rfl, hc, hr⟩ := h.rule_inv
  exact ⟨i, c, rfl, hi, hc, hr⟩

/-- A token between two nodes. -/
theorem Row.infix_inv (h : t.Row [.rule r, .token k, .rule r'] slots) :
    ∃ c i d, slots = [.node c, .token i, .node d] ∧ (c < t.size ∧ t.rule c = r) ∧
      (t.token i).kind = k ∧ d < t.size ∧ t.rule d = r' := by
  obtain ⟨c, _, rfl, hc, hr, h⟩ := h.cons_rule_inv
  obtain ⟨i, d, rfl, hi, hd, hr'⟩ := h.prefix_inv
  exact ⟨c, i, d, rfl, ⟨hc, hr⟩, hi, hd, hr'⟩

/-- A node between two tokens. -/
theorem Row.enclosed_inv {k' : Kind} (h : t.Row [.token k, .rule r, .token k'] slots) :
    ∃ i c j, slots = [.token i, .node c, .token j] ∧ (t.token i).kind = k ∧
      (c < t.size ∧ t.rule c = r) ∧ (t.token j).kind = k' := by
  obtain ⟨i, _, rfl, hi, h⟩ := h.cons_token_inv
  obtain ⟨c, _, rfl, hc, hr, h⟩ := h.cons_rule_inv
  obtain ⟨j, rfl, hj⟩ := h.token_inv
  exact ⟨i, c, j, rfl, hi, ⟨hc, hr⟩, hj⟩

/-- **A list is read item by item**: a view of its nodes says what is written at each of them. -/
theorem Row.exists_items (h : t.Row (separated (.rule r) k n ++ rest) slots)
    (hitem : ∀ c < t.size, t.rule c = r → ∃ a, f c = some a ∧ W c a) :
    ∃ items as tail, slots = items ++ tail ∧ t.Row rest tail ∧
      (items.filterMap Slot.node?).filterMap f = as ∧ t.Listed k W items as := by
  -- By induction on the number of separators; the slots behind the list are left as they are.
  induction n generalizing slots with
  | zero =>
    obtain ⟨c, tail, rfl, hc, hr, h⟩ := h.cons_rule_inv
    obtain ⟨a, ha, hw⟩ := hitem c hc hr
    exact ⟨[.node c], [a], tail, rfl, h, by simp [ha], .last hw⟩
  | succ n ih =>
    obtain ⟨c, _, rfl, hc, hr, h⟩ := h.cons_rule_inv
    obtain ⟨i, _, rfl, hi, h⟩ := h.cons_token_inv
    obtain ⟨items, as, tail, rfl, h, has, hlisted⟩ := ih h
    obtain ⟨a, ha, hw⟩ := hitem c hc hr
    refine ⟨.node c :: .token i :: items, a :: as, tail, rfl, h, ?_, .more hw hi hlisted⟩
    simp [List.filterMap_cons, ha, has]

/-- A list that makes up all children of a node. -/
theorem Row.exists_all_items (h : t.Row (separated (.rule r) k n) slots)
    (hitem : ∀ c < t.size, t.rule c = r → ∃ a, f c = some a ∧ W c a) :
    ∃ as, (slots.filterMap Slot.node?).filterMap f = as ∧ t.Listed k W slots as := by
  rw [← List.append_nil (separated _ _ _)] at h
  obtain ⟨items, as, tail, rfl, hnil, has, hlisted⟩ := h.exists_items hitem
  rw [hnil.nil_inv, List.append_nil]
  exact ⟨as, has, hlisted⟩

theorem childNodes_eq_filterMap (t : ParseTree) (id : NodeId) :
    t.childNodes id = (t.children id).filterMap Slot.node? := rfl

/-- What a node of a rule is labelled as, and the row of its children. -/
theorem Spelled.exists_production (h : t.Spelled) (hid : id < t.size) (hr : t.rule id = r) :
    ∃ l body, t.label id = l ∧ l.rule = r ∧ Production l body ∧ t.Row body (t.children id) := by
  obtain ⟨body, hbody, hrow⟩ := h id hid
  exact ⟨_, body, rfl, hr, hbody, hrow⟩

/-! ## Names -/

theorem Spelled.identifier (h : t.Spelled) (hid : id < t.size) (hr : t.rule id = .identifier) :
    ∃ name, t.nameAt? id = some name ∧ t.WritesName .identifier id name := by
  obtain ⟨l, body, hl, hrule, hbody, hrow⟩ := h.exists_production hid hr
  cases hbody with
  | identifier =>
    obtain ⟨i, hc, -⟩ := hrow.token_inv
    refine ⟨unquoteName (t.token i).text, ?_, hr, i, hc, rfl⟩
    simp [nameAt?, firstToken?, directTokens, hc]
  | _ => cases hrule

theorem Spelled.sourceName? (h : t.Spelled) (hid : id < t.size)
    (hr : t.rule id = .sourceIdentifier) :
    ∃ name, t.sourceName? id = some name ∧ t.WritesName .sourceIdentifier id name := by
  obtain ⟨l, body, hl, hrule, hbody, hrow⟩ := h.exists_production hid hr
  cases hbody with
  | sourceIdentifier =>
    obtain ⟨i, hc, -⟩ := hrow.token_inv
    refine ⟨unquoteName (t.token i).text, ?_, hr, i, hc, rfl⟩
    simp [ParseTree.sourceName?, hl, nameAt?, firstToken?, directTokens, hc]
  | _ => cases hrule

theorem Spelled.qualifiedName? (h : t.Spelled) (hid : id < t.size)
    (hr : t.rule id = .qualifiedName) :
    t.label id = .qualifiedName ∧
      ∃ n, t.qualifiedName? id = some n ∧ t.WritesQualifiedName id n := by
  obtain ⟨l, body, hl, hrule, hbody, hrow⟩ := h.exists_production hid hr
  cases hbody with
  | qualifiedName =>
    obtain ⟨parts, hparts, hlisted⟩ := hrow.exists_all_items fun c => h.identifier
    rw [← childNodes_eq_filterMap] at hparts
    refine ⟨hl, ⟨parts⟩, ?_, hr, hlisted⟩
    rw [ParseTree.qualifiedName?, if_pos hl, hparts]
  | _ => cases hrule

/-! ## Expressions -/

theorem Spelled.booleanExpression? (h : t.Spelled) (hid : id < t.size)
    (hr : t.rule id = .booleanExpression) :
    ∃ v, t.booleanExpression? id = some v ∧ t.WritesBoolean id v := by
  obtain ⟨l, body, hl, hrule, hbody, hrow⟩ := h.exists_production hid hr
  cases hbody with
  | logicalNot =>
    obtain ⟨i, o, hc, hi, -, ho⟩ := hrow.prefix_inv
    refine ⟨.not o, ?_, .not hc hi ho⟩
    simp [ParseTree.booleanExpression?, hl, childNode?, childNodes, hc]
  | booleanDefault =>
    obtain ⟨o, hc, -, ho⟩ := hrow.rule_inv
    refine ⟨.value o, ?_, .value hc ho⟩
    simp [ParseTree.booleanExpression?, hl, childNode?, childNodes, hc]
  | logicalBinary hk =>
    obtain ⟨a, i, b, hc, ⟨-, ha⟩, hi, -, hb⟩ := hrow.infix_inv
    obtain ⟨op, rfl⟩ := LogicalOperator.exists_kind hk
    refine ⟨.binary a op b, ?_, .binary hc ha hi hb⟩
    simp [ParseTree.booleanExpression?, hl, childNode?, childNodes, operator?, directTokens, hc, hi]
  | _ => cases hrule

theorem Spelled.comparisonOperator (h : t.Spelled) (hid : id < t.size)
    (hr : t.rule id = .comparisonOperator) :
    t.label id = .comparisonOperator ∧
      ∃ op i, t.operator? ComparisonOperator.ofKind? id = some op ∧ t.children id = [.token i] ∧
        (t.token i).kind = op.kind := by
  obtain ⟨l, body, hl, hrule, hbody, hrow⟩ := h.exists_production hid hr
  cases hbody with
  | comparisonOperator hk =>
    obtain ⟨i, hc, hi⟩ := hrow.token_inv
    obtain ⟨op, rfl⟩ := ComparisonOperator.exists_kind hk
    refine ⟨hl, op, i, ?_, hc, hi⟩
    simp [operator?, directTokens, hc, hi]
  | _ => cases hrule

theorem Spelled.valueExpression? (h : t.Spelled) (hid : id < t.size)
    (hr : t.rule id = .valueExpression) :
    ∃ v, t.valueExpression? id = some v ∧ t.WritesValue id v := by
  obtain ⟨l, body, hl, hrule, hbody, hrow⟩ := h.exists_production hid hr
  cases hbody with
  | valueExpressionDefault =>
    obtain ⟨o, hc, -, ho⟩ := hrow.rule_inv
    refine ⟨.plain o, ?_, .plain hc ho⟩
    simp [ParseTree.valueExpression?, hl, childNode?, childNodes, hc]
  | comparison =>
    obtain ⟨a, _, hc, halt, ha, htail⟩ := hrow.cons_rule_inv
    obtain ⟨o, _, rfl, holt, ho, hlast⟩ := htail.cons_rule_inv
    obtain ⟨b, rfl, -, hb⟩ := hlast.rule_inv
    obtain ⟨hlabel, op, i, hop, htoken, hi⟩ := h.comparisonOperator holt ho
    -- The left operand is of another rule, so the view does not stop at it.
    have hne : t.label a ≠ .comparisonOperator := by
      intro hlabel
      rw [rule, hlabel] at ha
      cases ha
    refine ⟨.comparison a op b, ?_, .comparison hc ha ho htoken hi hb⟩
    simp [ParseTree.valueExpression?, hl, childNode?, childNodes, hc, comparisonOperator?, hne,
      hlabel, hop]
  | _ => cases hrule

theorem Spelled.operatorExpression? (h : t.Spelled) (hid : id < t.size)
    (hr : t.rule id = .operatorExpression) :
    ∃ v, t.operatorExpression? id = some v ∧ t.WritesOperator id v := by
  obtain ⟨l, body, hl, hrule, hbody, hrow⟩ := h.exists_production hid hr
  cases hbody with
  | operatorExpressionDefault =>
    obtain ⟨o, hc, -, ho⟩ := hrow.rule_inv
    refine ⟨.primary o, ?_, .primary hc ho⟩
    simp [ParseTree.operatorExpression?, hl, childNode?, childNodes, hc]
  | arithmeticUnary hk =>
    obtain ⟨i, o, hc, hi, -, ho⟩ := hrow.prefix_inv
    obtain ⟨op, rfl⟩ := ArithmeticOperator.exists_kind_of_sign hk
    refine ⟨.unary op o, ?_, .unary hc hi ho⟩
    simp [ParseTree.operatorExpression?, hl, childNode?, childNodes, operator?, directTokens, hc,
      hi]
  | arithmeticBinary hk =>
    obtain ⟨a, i, b, hc, ⟨-, ha⟩, hi, -, hb⟩ := hrow.infix_inv
    obtain ⟨op, rfl⟩ := ArithmeticOperator.exists_kind hk
    refine ⟨.binary a op b, ?_, .binary hc ha hi hb⟩
    simp [ParseTree.operatorExpression?, hl, childNode?, childNodes, operator?, directTokens, hc,
      hi]
  | _ => cases hrule

theorem Spelled.number (h : t.Spelled) (hid : id < t.size) (hr : t.rule id = .number) :
    ∃ form i, t.numberForm? id = some form ∧ t.children id = [.token i] ∧
      (t.token i).kind = form.kind := by
  obtain ⟨l, body, hl, hrule, hbody, hrow⟩ := h.exists_production hid hr
  cases hbody with
  | decimalLiteral =>
    obtain ⟨i, hc, hi⟩ := hrow.token_inv
    exact ⟨.decimal, i, by rw [numberForm?, hl], hc, hi⟩
  | integerLiteral =>
    obtain ⟨i, hc, hi⟩ := hrow.token_inv
    exact ⟨.integer, i, by rw [numberForm?, hl], hc, hi⟩
  | _ => cases hrule

theorem Spelled.booleanValue (h : t.Spelled) (hid : id < t.size) (hr : t.rule id = .booleanValue) :
    ∃ b i, t.children id = [.token i] ∧ (t.token i).kind = truthKind b := by
  obtain ⟨l, body, hl, hrule, hbody, hrow⟩ := h.exists_production hid hr
  cases hbody with
  | booleanValue hk =>
    obtain ⟨i, hc, hi⟩ := hrow.token_inv
    simp only [List.mem_cons, List.not_mem_nil, or_false] at hk
    rcases hk with rfl | rfl
    · exact ⟨true, i, hc, hi⟩
    · exact ⟨false, i, hc, hi⟩
  | _ => cases hrule

theorem Spelled.string (h : t.Spelled) (hid : id < t.size) (hr : t.rule id = .string) :
    ∃ i, t.children id = [.token i] ∧ (t.token i).kind = .string := by
  obtain ⟨l, body, hl, hrule, hbody, hrow⟩ := h.exists_production hid hr
  cases hbody with
  | string => exact hrow.token_inv
  | _ => cases hrule

theorem Spelled.constant? (h : t.Spelled) (hid : id < t.size) (hr : t.rule id = .constant) :
    ∃ v, t.constant? id = some v ∧ t.WritesConstant id v := by
  obtain ⟨l, body, hl, hrule, hbody, hrow⟩ := h.exists_production hid hr
  cases hbody with
  | nullLiteral =>
    obtain ⟨i, hc, hi⟩ := hrow.token_inv
    exact ⟨.null, by rw [ParseTree.constant?, hl], .null hc hi⟩
  | numericLiteral =>
    obtain ⟨c, hc, hlt, hcr⟩ := hrow.rule_inv
    obtain ⟨form, i, hform, htoken, hi⟩ := h.number hlt hcr
    refine ⟨.number ⟨form, (t.token i).text⟩, ?_, .number hc hcr htoken hi⟩
    simp [ParseTree.constant?, hl, childNode?, childNodes, hc, hform, firstToken?, directTokens,
      htoken]
  | booleanLiteral =>
    obtain ⟨c, hc, hlt, hcr⟩ := hrow.rule_inv
    obtain ⟨b, i, htoken, hi⟩ := h.booleanValue hlt hcr
    refine ⟨.truth b, ?_, .truth hc hcr htoken hi⟩
    simp [ParseTree.constant?, hl, childNode?, childNodes, hc, firstToken?, directTokens, htoken,
      hi]
    cases b <;> rfl
  | stringLiteral =>
    obtain ⟨c, hc, hlt, hcr⟩ := hrow.rule_inv
    obtain ⟨i, htoken, hi⟩ := h.string hlt hcr
    refine ⟨.text (unquoteString (t.token i).text), ?_, .text hc hcr htoken hi⟩
    simp [ParseTree.constant?, hl, childNode?, childNodes, hc, firstToken?, directTokens, htoken]
  | _ => cases hrule

theorem Spelled.primaryExpression? (h : t.Spelled) (hid : id < t.size)
    (hr : t.rule id = .primaryExpression) :
    ∃ v, t.primaryExpression? id = some v ∧ t.WritesPrimary id v := by
  obtain ⟨l, body, hl, hrule, hbody, hrow⟩ := h.exists_production hid hr
  cases hbody with
  | constantDefault =>
    obtain ⟨c, hc, hlt, hcr⟩ := hrow.rule_inv
    obtain ⟨v, hv, hw⟩ := h.constant? hlt hcr
    refine ⟨.constant v, ?_, .constant hc hcr hw⟩
    simp [ParseTree.primaryExpression?, hl, childNode?, childNodes, hc, hv]
  | dereference =>
    obtain ⟨c, hc, hlt, hcr⟩ := hrow.rule_inv
    obtain ⟨-, n, hn, hw⟩ := h.qualifiedName? hlt hcr
    refine ⟨.name n, ?_, .name hc hw⟩
    simp [ParseTree.primaryExpression?, hl, childNode?, childNodes, hc, hn]
  | parenthesizedExpression =>
    obtain ⟨i, c, j, hc, hi, ⟨-, hcr⟩, hj⟩ := hrow.enclosed_inv
    refine ⟨.parenthesized c, ?_, .parenthesized hc hi hcr hj⟩
    simp [ParseTree.primaryExpression?, hl, childNode?, childNodes, hc]
  | functionWithout =>
    obtain ⟨c, _, hc, hlt, hcr, htail⟩ := hrow.cons_rule_inv
    obtain ⟨i, _, rfl, hi, hlast⟩ := htail.cons_token_inv
    obtain ⟨j, rfl, hj⟩ := hlast.token_inv
    obtain ⟨f, hf, hw⟩ := h.identifier hlt hcr
    refine ⟨.call f [], ?_, .callWithout hc hw hi hj⟩
    simp [ParseTree.primaryExpression?, hl, childNode?, childNodes, hc, hf]
  | functionWith n =>
    obtain ⟨c, _, hc, hlt, hcr, htail⟩ := hrow.cons_rule_inv
    obtain ⟨i, _, rfl, hi, hargs⟩ := htail.cons_token_inv
    -- The arguments are not looked at: each of them stands for itself.
    have hitem (c : NodeId) (_ : c < t.size) (hcr : t.rule c = .booleanExpression) :
        ∃ a, some c = some a ∧ c = a ∧ t.rule a = .booleanExpression := ⟨c, rfl, rfl, hcr⟩
    obtain ⟨items, args, _, rfl, hlast, has, hlisted⟩ := hargs.exists_items hitem
    obtain ⟨j, rfl, hj⟩ := hlast.token_inv
    obtain ⟨f, hf, hw⟩ := h.identifier hlt hcr
    have hnodes : t.childNodes id = c :: args := by
      rw [childNodes_eq_filterMap, hc]
      simpa [List.filterMap_cons, List.filterMap_append] using has
    refine ⟨.call f args, ?_, .call hc hw hi hlisted hj⟩
    simp [ParseTree.primaryExpression?, hl, childNode?, hnodes, hf]
  | _ => cases hrule

end ParseTree

end PipeQuery

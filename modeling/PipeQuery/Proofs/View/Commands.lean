import PipeQuery.Proofs.View.Expressions

/-!
# What the views of commands say

The views of commands and queries, in a tree whose nodes all spell alternatives of the grammar.

## Main results

* `Spelled.field?`, `Spelled.orderExpression?`, `Spelled.projectClause?`: the items of commands
* `Spelled.action?`, `Spelled.command?`: commands
* `Spelled.query?`: queries
-/

namespace PipeQuery

open Token (Kind)

namespace ParseTree

variable {t : ParseTree} {id : NodeId} {r : Rule} {ks : List Kind} {slots : List Slot}

/-! ## Items -/

theorem Spelled.field? (h : t.Spelled) (hid : id < t.size) (hr : t.rule id = .field) :
    ∃ v, t.field? id = some v ∧ t.WritesField id v := by
  obtain ⟨l, body, hl, hrule, hbody, hrow⟩ := h.exists_production hid hr
  cases hbody with
  | field =>
    obtain ⟨c, hc, -, hcr⟩ := hrow.rule_inv
    -- An expression is no name, so the view does not take it for what is assigned to.
    have hne : t.label c ≠ .qualifiedName := by
      intro hlabel
      rw [rule, hlabel] at hcr
      cases hcr
    refine ⟨⟨none, c⟩, ?_, .plain hr hc hcr⟩
    simp [ParseTree.field?, hl, childNode?, childNodes, hc, hne]
  | assignment =>
    obtain ⟨n, i, c, hc, ⟨hlt, hnr⟩, hi, -, hcr⟩ := hrow.infix_inv
    obtain ⟨hlabel, name, hname, hw⟩ := h.qualifiedName? hlt hnr
    refine ⟨⟨some name, c⟩, ?_, .assigned hr hc hw hi hcr⟩
    simp [ParseTree.field?, hl, childNode?, childNodes, hc, hlabel, hname]
  | _ => cases hrule

theorem Row.tokens_inv (h : t.Row (ks.map .token) slots) :
    ∃ is : List Nat, slots = is.map .token ∧ is.map (fun i => (t.token i).kind) = ks := by
  induction ks generalizing slots with
  | nil => exact ⟨[], h.nil_inv, rfl⟩
  | cons k ks ih =>
    obtain ⟨i, _, rfl, hi, h⟩ := h.cons_token_inv
    obtain ⟨is, rfl, his⟩ := ih h
    exact ⟨i :: is, rfl, by rw [List.map_cons, hi, his]⟩

/-- The last of the words that are read off the tokens behind a node. -/
theorem lastWord?_eq {α : Type} {ofKind? : Kind → Option α} {c : NodeId} {is : List Nat}
    (hc : t.children id = .node c :: is.map .token)
    (his : is.map (fun i => (t.token i).kind) = ks) :
    t.lastWord? ofKind? id = (ks.filterMap ofKind?).getLast? := by
  have htokens : t.directTokens id = is.map t.token := by
    rw [directTokens, hc, List.filterMap_cons_none rfl, List.filterMap_map]
    exact congrFun List.filterMap_eq_map is
  rw [lastWord?, htokens, ← his, List.filterMap_map, List.filterMap_map]
  rfl

theorem Spelled.orderExpression? (h : t.Spelled) (hid : id < t.size)
    (hr : t.rule id = .orderExpression) :
    ∃ v, t.orderExpression? id = some v ∧ t.WritesOrder id v := by
  obtain ⟨l, body, hl, hrule, hbody, hrow⟩ := h.exists_production hid hr
  cases hbody with
  | @orderExpression order nulls horder hnulls =>
    obtain ⟨c, _, hc, -, hcr, htail⟩ := hrow.cons_rule_inv
    -- The view looks for words of each kind, wherever they stand behind the key.
    change t.Row (order ++ nulls) _ at htail
    obtain ⟨o, rfl, hwords⟩ := OrderExpression.exists_words horder hnulls c
    rw [hwords] at htail
    obtain ⟨is, rfl, his⟩ := htail.tokens_inv
    refine ⟨o, ?_, .mk hr hc hcr his⟩
    have hchild : t.childNode? id 0 = some o.expression := by simp [childNode?, childNodes, hc]
    rw [ParseTree.orderExpression?, if_pos hl, hchild, Option.map_some, lastWord?_eq hc his,
      lastWord?_eq hc his, o.getLast?_order, o.getLast?_nulls]
  | _ => cases hrule

theorem Spelled.projectClause? (h : t.Spelled) (hid : id < t.size)
    (hr : t.rule id = .projectClause) :
    ∃ v, t.projectClause? id = some v ∧ t.WritesClause id v := by
  obtain ⟨l, body, hl, hrule, hbody, hrow⟩ := h.exists_production hid hr
  cases hbody with
  | keep =>
    obtain ⟨c, hc, hlt, hcr⟩ := hrow.rule_inv
    obtain ⟨name, hname, hw⟩ := h.sourceName? hlt hcr
    refine ⟨.keep name, ?_, .keep hr hc hw⟩
    simp [ParseTree.projectClause?, hl, childNodes, hc, hname]
  | rename =>
    obtain ⟨c, i, d, hc, ⟨hlt, hcr⟩, hi, hlt', hdr⟩ := hrow.infix_inv
    obtain ⟨new, hnew, hw⟩ := h.sourceName? hlt hcr
    obtain ⟨old, hold, hw'⟩ := h.sourceName? hlt' hdr
    refine ⟨.rename new old, ?_, .rename hr hc hw hi hw'⟩
    simp [ParseTree.projectClause?, hl, childNodes, hc, hnew, hold]
  | _ => cases hrule

/-! ## Lists of items -/

theorem Spelled.fields (h : t.Spelled) (hid : id < t.size) (hr : t.rule id = .fields) :
    t.label id = .fields ∧
      ∃ fields, (t.childNodes id).filterMap t.field? = fields ∧ t.WritesFields id fields := by
  obtain ⟨l, body, hl, hrule, hbody, hrow⟩ := h.exists_production hid hr
  cases hbody with
  | fields =>
    obtain ⟨fields, hfields, hlisted⟩ := hrow.exists_all_items fun c => h.field?
    exact ⟨hl, fields, hfields, hr, hlisted⟩
  | _ => cases hrule

theorem Spelled.groups (h : t.Spelled) (hid : id < t.size) (hr : t.rule id = .qualifiedNames) :
    t.label id = .qualifiedNames ∧
      ∃ groups, (t.childNodes id).filterMap t.qualifiedName? = groups ∧
        t.WritesGroups id groups := by
  obtain ⟨l, body, hl, hrule, hbody, hrow⟩ := h.exists_production hid hr
  cases hbody with
  | qualifiedNames =>
    obtain ⟨groups, hgroups, hlisted⟩ :=
      hrow.exists_all_items fun c hc hcr => (h.qualifiedName? hc hcr).2
    exact ⟨hl, groups, hgroups, hr, hlisted⟩
  | _ => cases hrule

/-! ## Commands -/

/-- A command with a keyword and a list of fields. -/
theorem Spelled.fieldsCommand (h : t.Spelled) {k : Kind}
    (hrow : t.Row [.token k, .rule .fields] (t.children id)) :
    ∃ i c fields, t.children id = [.token i, .node c] ∧ (t.token i).kind = k ∧
      t.label c = .fields ∧ t.fields? id = some fields ∧ t.WritesFields c fields := by
  obtain ⟨i, c, hc, hi, hlt, hcr⟩ := hrow.prefix_inv
  obtain ⟨hlabel, fields, hfields, hw⟩ := h.fields hlt hcr
  refine ⟨i, c, fields, hc, hi, hlabel, ?_, hw⟩
  simp [fields?, childLabelled?, childNodes, hc, hlabel, ← hfields]

/-- **The view of a single command** says what is written at its node. -/
theorem Spelled.action? (h : t.Spelled) (hid : id < t.size)
    (hr : t.rule id ∈ sourceCommands ++ processingCommands) :
    ∃ a, t.action? id = some a ∧ t.WritesAction id a ∧ a.rule = t.rule id := by
  -- One case per production of a command: what is at the node by its production is what the view
  -- takes from it.
  obtain ⟨l, body, hl, hrule, hbody, hrow⟩ := h.exists_production hid rfl
  rw [← hrule] at hr ⊢
  cases hbody with
  | explainCommand =>
    obtain ⟨i, c, hc, hi, hlt, hcr⟩ := hrow.prefix_inv
    obtain ⟨l', body, hl', hrule', hbody, hrow'⟩ := h.exists_production hlt hcr
    cases hbody with
    | subqueryExpression =>
      obtain ⟨l, q, r, hc', hleft, ⟨-, hq⟩, hright⟩ := hrow'.enclosed_inv
      refine ⟨.explainCmd q, ?_, .explainCmd hc hi hcr hc' hleft hq hright, rfl⟩
      simp [ParseTree.action?, hl, childNode?, childNodes, hc, hc']
    | _ => cases hrule'
  | fromCommand =>
    obtain ⟨i, slots, hc, hi, hlist⟩ := hrow.cons_token_inv
    obtain ⟨sources, hsources, hlisted⟩ := hlist.exists_all_items fun c => h.sourceName?
    refine ⟨.fromCmd sources, ?_, .fromCmd hc hi hlisted, rfl⟩
    simp [ParseTree.action?, hl, childNodes_eq_filterMap, hc, List.filterMap_cons, hsources]
  | rowCommand =>
    obtain ⟨i, c, fields, hc, hi, -, hfields, hw⟩ := h.fieldsCommand hrow
    refine ⟨.rowCmd fields, ?_, .rowCmd hc hi hw, rfl⟩
    simp [ParseTree.action?, hl, hfields]
  | evalCommand =>
    obtain ⟨i, c, fields, hc, hi, -, hfields, hw⟩ := h.fieldsCommand hrow
    refine ⟨.evalCmd fields, ?_, .evalCmd hc hi hw, rfl⟩
    simp [ParseTree.action?, hl, hfields]
  | statsCommand =>
    obtain ⟨i, c, fields, hc, hi, hlabel, hfields, hw⟩ := h.fieldsCommand hrow
    -- Without the word for groups there is no list of names to be found.
    have hgroups : t.groups id = [] := by
      simp [ParseTree.groups, childLabelled?, childNodes, hc, hlabel]
    refine ⟨.statsCmd fields [], ?_, .statsCmd hc hi hw, rfl⟩
    simp [ParseTree.action?, hl, hfields, hgroups]
  | statsCommandBy =>
    obtain ⟨i, _, hc, hi, htail⟩ := hrow.cons_token_inv
    obtain ⟨c, _, rfl, hlt, hcr, hby⟩ := htail.cons_rule_inv
    obtain ⟨j, d, rfl, hj, hlt', hdr⟩ := hby.prefix_inv
    obtain ⟨hlabel, fields, hfields, hw⟩ := h.fields hlt hcr
    obtain ⟨hlabel', groups, hgroups, hw'⟩ := h.groups hlt' hdr
    refine ⟨.statsCmd fields groups, ?_, .statsBy hc hi hw hj hw', rfl⟩
    simp [ParseTree.action?, hl, fields?, ParseTree.groups, childLabelled?, childNodes_eq_filterMap,
      hc, hlabel, hlabel', ← hfields, ← hgroups]
  | whereCommand =>
    obtain ⟨i, c, hc, hi, -, hcr⟩ := hrow.prefix_inv
    refine ⟨.whereCmd c, ?_, .whereCmd hc hi hcr, rfl⟩
    simp [ParseTree.action?, hl, childNode?, childNodes, hc]
  | limitCommand =>
    obtain ⟨i, _, hc, hi, hcount⟩ := hrow.cons_token_inv
    obtain ⟨j, rfl, hj⟩ := hcount.token_inv
    refine ⟨.limitCmd (t.token j), ?_, .limitCmd hc hi hj, rfl⟩
    simp [ParseTree.action?, hl, directTokens, hc, hi, hj]
  | sortCommand =>
    obtain ⟨i, slots, hc, hi, hlist⟩ := hrow.cons_token_inv
    obtain ⟨orders, horders, hlisted⟩ := hlist.exists_all_items fun c => h.orderExpression?
    refine ⟨.sortCmd orders, ?_, .sortCmd hc hi hlisted, rfl⟩
    simp [ParseTree.action?, hl, childNodes_eq_filterMap, hc, List.filterMap_cons, horders]
  | projectCommand =>
    obtain ⟨i, slots, hc, hi, hlist⟩ := hrow.cons_token_inv
    obtain ⟨clauses, hclauses, hlisted⟩ := hlist.exists_all_items fun c => h.projectClause?
    refine ⟨.projectCmd clauses, ?_, .projectCmd hc hi hlisted, rfl⟩
    simp [ParseTree.action?, hl, childNodes_eq_filterMap, hc, List.filterMap_cons, hclauses]
  | _ => simp [sourceCommands, processingCommands, Label.rule] at hr

/-- A command is read at its own node. -/
theorem command?_of_action? {a : Command.Action} (ha : t.action? id = some a) :
    t.command? id = some ⟨id, a⟩ := by
  -- The two rules that only choose a command have no action of their own.
  rw [ParseTree.command?]
  split
  · rename_i hl
    rw [ParseTree.action?, hl] at ha
    cases ha
  · rename_i hl
    rw [ParseTree.action?, hl] at ha
    cases ha
  · rw [ha, Option.map_some]

/-- A node that only chooses a command is read as the command below it. -/
theorem Spelled.chosenCommand? (h : t.Spelled)
    (hl : t.label id = .sourceCommand ∨ t.label id = .processingCommand)
    (hrow : t.Row [.rule r] (t.children id)) (hr : r ∈ sourceCommands ++ processingCommands) :
    ∃ c, t.command? id = some c ∧ t.WritesCommand id c ∧ c.action.rule = r ∧
      t.command? c.node = some c := by
  obtain ⟨c, hc, hlt, rfl⟩ := hrow.rule_inv
  obtain ⟨a, ha, hw, hrule⟩ := h.action? hlt hr
  refine ⟨⟨c, a⟩, ?_, .chosen hc hw, hrule, command?_of_action? ha⟩
  rcases hl with hl | hl <;> simp [ParseTree.command?, hl, childNode?, childNodes, hc, ha]

/-- **The view of a source command** says what is written at the one command that it chooses. -/
theorem Spelled.sourceCommand? (h : t.Spelled) (hid : id < t.size)
    (hr : t.rule id = .sourceCommand) :
    ∃ c, t.command? id = some c ∧ t.WritesCommand id c ∧ c.action.rule ∈ sourceCommands ∧
      t.command? c.node = some c := by
  obtain ⟨l, body, hl, hrule, hbody, hrow⟩ := h.exists_production hid hr
  cases hbody with
  | sourceCommand hmem =>
    obtain ⟨c, hc, hw, rfl, hcommand⟩ :=
      h.chosenCommand? (.inl hl) hrow (List.mem_append_left _ hmem)
    exact ⟨c, hc, hw, hmem, hcommand⟩
  | _ => cases hrule

/-- **The view of a processing command**, likewise. -/
theorem Spelled.processingCommand? (h : t.Spelled) (hid : id < t.size)
    (hr : t.rule id = .processingCommand) :
    ∃ c, t.command? id = some c ∧ t.WritesCommand id c ∧ c.action.rule ∈ processingCommands ∧
      t.command? c.node = some c := by
  obtain ⟨l, body, hl, hrule, hbody, hrow⟩ := h.exists_production hid hr
  cases hbody with
  | processingCommand hmem =>
    obtain ⟨c, hc, hw, rfl, hcommand⟩ :=
      h.chosenCommand? (.inr hl) hrow (List.mem_append_right _ hmem)
    exact ⟨c, hc, hw, hmem, hcommand⟩
  | _ => cases hrule

/-- **The view of a command**, at its own node or at the one that chooses it. -/
theorem Spelled.command? (h : t.Spelled) (hid : id < t.size)
    (hr : t.rule id ∈
      [.sourceCommand, .processingCommand] ++ sourceCommands ++ processingCommands) :
    ∃ c, t.command? id = some c ∧ t.WritesCommand id c ∧ t.command? c.node = some c := by
  rw [List.append_assoc, List.mem_append] at hr
  rcases hr with hr | hr
  · simp only [List.mem_cons, List.not_mem_nil, or_false] at hr
    rcases hr with hr | hr
    · obtain ⟨c, hc, hw, -, hcommand⟩ := h.sourceCommand? hid hr
      exact ⟨c, hc, hw, hcommand⟩
    · obtain ⟨c, hc, hw, -, hcommand⟩ := h.processingCommand? hid hr
      exact ⟨c, hc, hw, hcommand⟩
  · obtain ⟨a, ha, hw, -⟩ := h.action? hid hr
    exact ⟨⟨id, a⟩, command?_of_action? ha, .own hw, command?_of_action? ha⟩

/-! ## Queries -/

theorem Spelled.singleQuery? (h : t.Spelled) (hid : id < t.size)
    (hl : t.label id = .singleCommandQuery) :
    ∃ c command, t.query? id = some (.single command) ∧ t.children id = [.node c] ∧
      t.rule c = .sourceCommand ∧ t.WritesCommand c command ∧
      command.action.rule ∈ sourceCommands ∧ t.command? command.node = some command := by
  obtain ⟨body, hbody, hrow⟩ := h id hid
  rw [hl] at hbody
  cases hbody with
  | singleCommandQuery =>
    obtain ⟨c, hc, hlt, hcr⟩ := hrow.rule_inv
    obtain ⟨command, hcommand, hw⟩ := h.sourceCommand? hlt hcr
    refine ⟨c, command, ?_, hc, hcr, hw⟩
    simp [ParseTree.query?, hl, childNode?, childNodes, hc, hcommand]

theorem Spelled.compositeQuery? (h : t.Spelled) (hid : id < t.size)
    (hl : t.label id = .compositeQuery) :
    ∃ q i c command, t.query? id = some (.composite q command) ∧
      t.children id = [.node q, .token i, .node c] ∧ (q < t.size ∧ t.rule q = .query) ∧
      (t.token i).kind = .pipe ∧ t.rule c = .processingCommand ∧ t.WritesCommand c command ∧
      command.action.rule ∈ processingCommands ∧ t.command? command.node = some command := by
  obtain ⟨body, hbody, hrow⟩ := h id hid
  rw [hl] at hbody
  cases hbody with
  | compositeQuery =>
    obtain ⟨q, i, c, hc, hq, hi, hlt, hcr⟩ := hrow.infix_inv
    obtain ⟨command, hcommand, hw⟩ := h.processingCommand? hlt hcr
    refine ⟨q, i, c, command, ?_, hc, hq, hi, hcr, hw⟩
    simp [ParseTree.query?, hl, childNode?, childNodes, hc, hcommand]

/-- A query has pipes, or none. -/
theorem Spelled.label_of_query (h : t.Spelled) (hid : id < t.size) (hr : t.rule id = .query) :
    t.label id = .singleCommandQuery ∨ t.label id = .compositeQuery := by
  obtain ⟨l, body, hl, hrule, hbody, -⟩ := h.exists_production hid hr
  cases hbody with
  | singleCommandQuery => exact .inl hl
  | compositeQuery => exact .inr hl
  | _ => cases hrule

/-- **The view of a query** says what is written at its node. -/
theorem Spelled.query? (h : t.Spelled) (hid : id < t.size) (hr : t.rule id = .query) :
    ∃ q, t.query? id = some q ∧ t.WritesQuery id q := by
  rcases h.label_of_query hid hr with hl | hl
  · obtain ⟨c, command, hquery, hc, hcr, hw, hrules, -⟩ := h.singleQuery? hid hl
    exact ⟨.single command, hquery, .single hc hcr hw hrules⟩
  · obtain ⟨q, i, c, command, hquery, hc, hq, hi, hcr, hw, hrules, -⟩ := h.compositeQuery? hid hl
    exact ⟨.composite q command, hquery, .composite hc hq.2 hi hcr hw hrules⟩

end ParseTree

end PipeQuery

import PipeQuery.Proofs.Parser.Coverage
import PipeQuery.Proofs.View.Pipeline

/-!
# Views of valid trees

On a valid tree no view fails, and each of them says what is written at its node: the operands that
it names are nodes of the rules it needs, operators and keywords are those of the tokens, lists have
one entry for each item, and a pipeline has one command for each stage.

## Main definitions

* `ParseTree.Faithful`: a node whose views say what is written there

## Main results

* `parse_faithful`: all nodes of valid trees
-/

namespace PipeQuery

open Token (Kind)

/-- No alternative has a full query in it. -/
theorem Production.statement_notMem {l : Label} {body : List Symbol} (h : Production l body) :
    .rule .singleStatement ∉ body := by
  intro hmem
  cases h with
  | fromCommand | sortCommand | projectCommand =>
    rcases List.mem_cons.mp hmem with hmem | hmem
    · cases hmem
    · rcases mem_separated hmem with hmem | hmem <;> cases hmem
  | fields | qualifiedName | qualifiedNames =>
    rcases mem_separated hmem with hmem | hmem <;> cases hmem
  | functionWith =>
    simp only [List.cons_append, List.mem_cons, List.mem_append, List.not_mem_nil, or_false,
      reduceCtorEq, false_or] at hmem
    rcases hmem with hmem | hmem
    · cases hmem
    · rcases mem_separated hmem with hmem | hmem <;> cases hmem
  | orderExpression horder hnulls =>
    simp only [List.mem_cons, List.not_mem_nil, or_false] at horder hnulls
    rcases horder with rfl | rfl | rfl <;> rcases hnulls with rfl | rfl | rfl <;>
      simp at hmem
  | sourceCommand h | processingCommand h =>
    obtain rfl := Symbol.rule.inj (List.mem_singleton.mp hmem)
    exact absurd h (by decide)
  | _ => simp at hmem

namespace ParseTree

/-- A node whose views say what is written there. -/
structure Faithful (t : ParseTree) (id : NodeId) : Prop where
  statement : t.rule id = .singleStatement → t.isStatement id = true ∧ id = t.root ∧
    ∃ c i q, t.children id = [.node c, .token i] ∧ t.rule c = .query ∧
      (t.token i).kind = .endOfInput ∧ t.query? c = some q ∧ t.statementQuery? = some q
  query : t.rule id = .query → ∃ q, t.query? id = some q ∧ t.WritesQuery id q
  pipeline : t.rule id = .query → ∃ q ids, t.query? id = some q ∧ t.Chain ids id ∧
    (t.pipeline q).length = (t.pipes ids).length + 1 ∧
    (t.stageStarts id ids).Pairwise (· < ·) ∧
    List.Forall₂ t.Opens (t.stageStarts id ids) (t.pipeline q)
  command : t.rule id ∈
      [.sourceCommand, .processingCommand] ++ sourceCommands ++ processingCommands →
    ∃ c, t.command? id = some c ∧ t.WritesCommand id c ∧ t.Opens (t.node id).span.start c
  field : t.rule id = .field → ∃ v, t.field? id = some v ∧ t.WritesField id v
  boolean : t.rule id = .booleanExpression →
    ∃ v, t.booleanExpression? id = some v ∧ t.WritesBoolean id v
  value : t.rule id = .valueExpression →
    ∃ v, t.valueExpression? id = some v ∧ t.WritesValue id v
  operator : t.rule id = .operatorExpression →
    ∃ v, t.operatorExpression? id = some v ∧ t.WritesOperator id v
  primary : t.rule id = .primaryExpression →
    ∃ v, t.primaryExpression? id = some v ∧ t.WritesPrimary id v
  constant : t.rule id = .constant → ∃ v, t.constant? id = some v ∧ t.WritesConstant id v
  order : t.rule id = .orderExpression →
    ∃ v, t.orderExpression? id = some v ∧ t.WritesOrder id v
  clause : t.rule id = .projectClause →
    ∃ v, t.projectClause? id = some v ∧ t.WritesClause id v
  name : t.rule id = .qualifiedName →
    ∃ n, t.qualifiedName? id = some n ∧ t.WritesQualifiedName id n

variable {t : ParseTree} {id : NodeId} {x : Subtree}

/-- A node other than the root stands in no row as a full query. -/
theorem Spelled.eq_root (h : t.Spelled) (hx : t.IsWhole x) (hid : id < t.size)
    (hr : t.rule id = .singleStatement) : id = t.root := by
  -- The last step on the way from the root is to a child, and no row has a full query in it.
  obtain ⟨r, hslot, hreach⟩ :=
    reachable_of_entries x hx.nodes_eq (hx.perm.mem_iff.mpr (List.mem_range.mpr hid))
  obtain rfl := Slot.node.inj (hslot.symm.trans hx.slot_eq)
  rcases hreach.cases_tail with rfl | ⟨p, -, hp⟩
  · rfl
  · obtain ⟨body, hbody, hrow⟩ := h p (lt_of_slot hp)
    have hmem := hrow.rule_mem hp
    rw [hr] at hmem
    exact absurd hmem hbody.statement_notMem

/-- The view of a full query is that of its query. -/
theorem Spelled.statementQuery? (h : t.Spelled) (hx : t.IsWhole x) (hid : id < t.size)
    (hr : t.rule id = .singleStatement) : t.isStatement id = true ∧ id = t.root ∧
    ∃ c i q, t.children id = [.node c, .token i] ∧ t.rule c = .query ∧
      (t.token i).kind = .endOfInput ∧ t.query? c = some q ∧ t.statementQuery? = some q := by
  have hroot := h.eq_root hx hid hr
  obtain ⟨l, body, hl, hrule, hbody, hrow⟩ := h.exists_production hid hr
  cases hbody with
  | singleStatement =>
    obtain ⟨c, _, hc, hlt, hcr, hend⟩ := hrow.cons_rule_inv
    obtain ⟨i, rfl, hi⟩ := hend.token_inv
    obtain ⟨q, hq, -⟩ := h.query? hlt hcr
    have hstatement : t.isStatement id = true := by rw [isStatement, hl, decide_eq_true rfl]
    refine ⟨hstatement, hroot, c, i, q, hc, hcr, hi, hq, ?_⟩
    rw [ParseTree.statementQuery?, ← hroot, if_pos hstatement]
    simp [childNodes, hc, hq]
  | _ => cases hrule

/-- **Where all nodes spell alternatives, all views say what is written.** -/
theorem Spelled.faithful (h : t.Spelled) (hx : t.IsWhole x) (hid : id < t.size)
    (hs : t.rule id ≠ .singleStatement →
      ∃ i j n, t.Stretch [.node id] i j n ∧ n ≤ t.size) : t.Faithful id := by
  constructor
  case statement => exact h.statementQuery? hx hid
  case query => exact h.query? hid
  case pipeline =>
    intro hr
    obtain ⟨i, j, n, hstretch, hn⟩ := hs (by rw [hr]; decide)
    obtain ⟨q, ids, hq⟩ := hstretch.exists_staged h hid List.mem_cons_self hr
    have hopens := hq.opens t.size (Nat.le_succ_of_le (Nat.le_trans hq.length_le hn))
    -- One stage starts with the query, and one behind each pipe.
    refine ⟨q, ids, hq.query?_eq, hq.chain, ?_, hq.sorted, hopens⟩
    rw [pipeline, ← hopens.length_eq, stageStarts, List.length_cons, List.length_map]
  case command =>
    intro hr
    have hne : t.rule id ≠ .singleStatement := by
      intro hrule
      rw [hrule] at hr
      exact absurd hr (by decide)
    obtain ⟨i, j, n, hstretch, -⟩ := hs hne
    obtain ⟨k, _, _, hspan, -⟩ := hstretch.node_inv
    obtain ⟨c, hc, hw, hcommand⟩ := h.command? hid hr
    refine ⟨c, hc, hw, ?_⟩
    rw [hspan]
    exact (hw.opens hcommand hstretch).2
  case field => exact h.field? hid
  case boolean => exact h.booleanExpression? hid
  case value => exact h.valueExpression? hid
  case operator => exact h.operatorExpression? hid
  case primary => exact h.primaryExpression? hid
  case constant => exact h.constant? hid
  case order => exact h.orderExpression? hid
  case clause => exact h.projectClause? hid
  case name => exact fun hr => (h.qualifiedName? hid hr).2

/-- A node that tiles its tokens stretches over them. -/
theorem IsWhole.stretch {l : Label} {span : TokenSpan} {e : Option SyntaxError}
    {cs : List Subtree} {i j : Nat} (h : t.IsWhole x) (hy : .node id l span e cs ∈ x.nodes)
    (htile : (Subtree.node id l span e cs).Tiles i j) :
    ∃ n, t.Stretch [.node id] i j n ∧ n ≤ t.size := by
  refine ⟨_, Holds.stretch (h.holds.of_mem_nodes hy) htile .nil, ?_⟩
  have hlen := (Subtree.sublist_of_mem_nodes x hy).1.length_le
  have hsize : x.branch.preorder.length = t.size := by rw [h.perm.length_eq, List.length_range]
  rwa [← hsize, Nat.add_zero]

end ParseTree

namespace Parser

open ParseTree Subtree

variable {options : Options} {tokens : List Token} {t : ParseTree} {id : NodeId}

/-- **Views are total and faithful on valid trees.** In each valid tree of whatever entry, each view
of a node of its rule says what is written there, and the pipeline of each query has a command for
its source and one for each pipe of its chain, in order, each with its keyword where the stage
starts. -/
theorem parse_faithful (entry : Entry) (h : entry.parse options tokens = .ok t)
    (hv : t.isValid = true) (hid : id < t.size) : t.Faithful id := by
  cases entry with
  | statement =>
    obtain ⟨y, hy, hg⟩ := statement_groups h hv
    have hspelled := hy.spelled fun id => hy.spells hg
    obtain ⟨e, cs, n, hx, htile, -, -⟩ := statement_tree h
    refine hspelled.faithful hx hid fun hr => ?_
    obtain ⟨l, span, e', children, hmem⟩ := hx.exists_mem_nodes hid
    have hbelow : Subtree.node id l span e' children ∈ nodesOf (cs ++ [.token n]) := by
      obtain ⟨_, hnode⟩ := (hx.holds.of_mem_nodes hmem).node_eq
      rw [Subtree.nodes, List.mem_cons] at hmem
      rcases hmem with hmem | hmem
      · -- The root is the one node that reaches beyond its span.
        obtain ⟨-, rfl, -, -, -⟩ := Subtree.node.inj hmem
        exact absurd (by rw [ParseTree.rule, ParseTree.label, hnode]; rfl) hr
      · exact hmem
    have htile : AllTile (cs ++ [.token n]) 0 (n + 1) := htile.append ⟨n + 1, ⟨rfl, rfl⟩, rfl⟩
    obtain ⟨i, j, -, -, htile⟩ := htile.of_mem_nodesOf hbelow
    obtain ⟨m, hm⟩ := hx.stretch hmem htile
    exact ⟨i, j, m, hm⟩
  | expression floor =>
    obtain ⟨y, hy, hg⟩ := expression_groups h hv
    have hspelled := hy.spelled fun id => hy.spells hg
    obtain ⟨x, n, hx, htiles, -, -⟩ := expression_tree h
    refine hspelled.faithful hx hid fun hr => ?_
    obtain ⟨l, span, e, children, hmem⟩ := hx.exists_mem_nodes hid
    obtain ⟨i, j, -, -, htile⟩ := htiles.of_mem_nodes hmem
    obtain ⟨m, hm⟩ := hx.stretch hmem htile
    exact ⟨i, j, m, hm⟩

/-- In `from s, s | where not a == 1 | stats a.a = a(a, 1) by a` all views say what is written. -/
theorem parse_faithful_stages :
    ∃ t, Entry.parse ⟨60, .recover⟩ ([Kind.fromCmd, .sourceName, .comma, .sourceName, .pipe,
      .whereCmd, .notWord, .name, .equal, .integer, .pipe, .statsCmd, .name, .dot, .name, .assign,
      .name, .leftParen, .name, .comma, .integer, .rightParen, .byWord, .name].map Token.ofKind)
      .statement = .ok t ∧ t.isValid = true ∧ ∀ id < t.size, t.Faithful id := by
  obtain ⟨t, h, hv⟩ : ∃ t, Entry.parse ⟨60, .recover⟩ ([Kind.fromCmd, .sourceName, .comma,
      .sourceName, .pipe, .whereCmd, .notWord, .name, .equal, .integer, .pipe, .statsCmd, .name,
      .dot, .name, .assign, .name, .leftParen, .name, .comma, .integer, .rightParen, .byWord,
      .name].map Token.ofKind) .statement = .ok t ∧ t.isValid = true := by
    decide +kernel
  exact ⟨t, h, hv, fun id hid => parse_faithful .statement h hv hid⟩

end Parser

end PipeQuery

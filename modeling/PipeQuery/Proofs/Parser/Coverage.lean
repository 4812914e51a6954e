import PipeQuery.Parser.Source
import PipeQuery.Proofs.Parser.Entries

/-!
# Every token in its place

Tokens come into a tree by being matched, or by being dropped in one of several ways. However they
come, each of them is a leaf once, at its place in the input, and the span of each node is that of
its leaves. This holds of all trees, those with errors included.

## Main definitions

* `ParseTree.Covers`: a node whose leaves are the tokens of its span, with spans nested and in order

## Main results

* `parse_covers`: all nodes of all trees
-/

namespace PipeQuery

namespace Subtree

/-- The place of a node in its arena. -/
def id? : Subtree → Option NodeId
  | node id .. => some id
  | token _ | discarded _ => none

end Subtree

namespace ParseTree

open Subtree

/-- A node whose leaves are the tokens of its span, and then `last`. The spans of its children lie
inside its own, one behind the other. -/
structure Covers (t : ParseTree) (id : NodeId) (last : List Nat) : Prop where
  start_le : (t.node id).span.start ≤ (t.node id).span.stop
  leafIndices_eq : t.leafIndices id =
    List.range' (t.node id).span.start (t.node id).span.length ++ last
  contains : ∀ c ∈ t.childNodes id, (t.node id).span.contains (t.node c).span = true
  disjoint : (t.childNodes id).Pairwise fun c c' =>
    (t.node c).span.stop ≤ (t.node c').span.start

variable {t : ParseTree} {x : Subtree} {id : NodeId} {l : Label} {span : TokenSpan}
  {e : Option SyntaxError} {children cs : List Subtree} {i j n : Nat}

theorem childNodes_eq (h : t.children id = cs.map slot) :
    t.childNodes id = cs.filterMap Subtree.id? := by
  rw [childNodes, h, List.filterMap_map]
  congr 1
  funext x
  cases x <;> rfl

/-- The spans of nodes side by side lie one behind the other. -/
theorem spans_of_allTile (h : AllTile cs i j) (ht : ∀ c ∈ cs, t.Holds c) :
    (∀ c ∈ cs.filterMap Subtree.id?, i ≤ (t.node c).span.start ∧ (t.node c).span.stop ≤ j) ∧
      (cs.filterMap Subtree.id?).Pairwise fun c c' =>
        (t.node c).span.stop ≤ (t.node c').span.start := by
  induction cs generalizing i with
  | nil => exact ⟨fun c hc => (List.not_mem_nil hc).elim, .nil⟩
  | cons x xs ih =>
    obtain ⟨k, hx, hxs⟩ := h
    obtain ⟨hinside, hdisjoint⟩ := ih hxs fun c hc => ht c (List.mem_cons_of_mem _ hc)
    have hik := hx.le
    have hkj := hxs.le
    have hrest : ∀ c ∈ xs.filterMap Subtree.id?,
        i ≤ (t.node c).span.start ∧ (t.node c).span.stop ≤ j :=
      fun c hc => ⟨Nat.le_trans hik (hinside c hc).1, (hinside c hc).2⟩
    cases x with
    | token | discarded => exact ⟨hrest, hdisjoint⟩
    | node id l span e children =>
      obtain ⟨_, hnode⟩ := (ht _ List.mem_cons_self).node_eq
      have hspan : (t.node id).span = ⟨i, k⟩ := by rw [hnode, ← hx.1]
      have hcons : (Subtree.node id l span e children :: xs).filterMap Subtree.id? =
        id :: xs.filterMap Subtree.id? := rfl
      rw [hcons, List.forall_mem_cons, List.pairwise_cons, hspan]
      exact ⟨⟨⟨Nat.le_refl i, hkj⟩, hrest⟩, fun c hc => (hinside c hc).1, hdisjoint⟩

/-- A node whose children tile its span, but for a token behind them, covers its tokens. -/
theorem IsWhole.covers (h : t.IsWhole x) (last : List Nat)
    (hy : .node id l ⟨i, j⟩ e (cs ++ last.map .token) ∈ x.nodes) (htile : AllTile cs i j) :
    t.Covers id last := by
  have hholds := h.holds.of_mem_nodes hy
  obtain ⟨_, hnode⟩ := hholds.node_eq
  have hspan : (t.node id).span = ⟨i, j⟩ := by rw [hnode]
  -- The tokens behind the children are no nodes.
  have hchildren : t.childNodes id = cs.filterMap Subtree.id? := by
    have hslots : t.children id = (cs ++ last.map Subtree.token).map slot := by
      rw [ParseTree.children, hnode]
    have htokens : (last.map Subtree.token).filterMap Subtree.id? = [] := by
      rw [List.filterMap_map, List.filterMap_eq_nil_iff]
      exact fun _ _ => rfl
    rw [childNodes_eq hslots, List.filterMap_append, htokens, List.append_nil]
  obtain ⟨hinside, hdisjoint⟩ := spans_of_allTile htile fun c hc =>
    hholds.of_mem_children (List.mem_append_left _ hc)
  refine ⟨?_, ?_, ?_, ?_⟩
  · rw [hspan]
    exact htile.le
  · rw [h.leafIndices_eq hy, hspan, Subtree.branch, Branch.leafIndices, leafIndicesOf_append,
      htile.leafIndices, leafIndicesOf_tokens, TokenSpan.length]
  · rw [hchildren, hspan]
    intro c hc
    simpa [TokenSpan.contains] using hinside c hc
  · rw [hchildren]
    exact hdisjoint

/-- A node that tiles its span covers its tokens. -/
theorem IsWhole.covers_of_tiles (h : t.IsWhole x) (hy : .node id l span e children ∈ x.nodes)
    (htile : (Subtree.node id l span e children).Tiles i j) : t.Covers id [] := by
  obtain ⟨rfl, htile⟩ := htile
  rw [← List.append_nil children] at hy
  exact h.covers [] hy htile

end ParseTree

/-- What stands behind the tokens of its span among the leaves of a node: the end of the input, at
the root of a query. -/
def Entry.lastLeaf (entry : Entry) (t : ParseTree) (id : NodeId) : List Nat :=
  if entry = .statement ∧ id = t.root then [t.tokens.size - 1] else []

namespace Parser

open Subtree
open Token (Kind)

variable {options : Options} {tokens : List Token} {t : ParseTree}

/-- **No token is lost, doubled or misplaced.** Whatever tokens are parsed, with whatever options
and as whatever they are taken for, each node of the tree covers the tokens of its span, and the
root covers all tokens in order: that of a query with the end of the input, that of an expression
without it. -/
theorem parse_covers (entry : Entry) (h : entry.parse options tokens = .ok t) :
    t.leafIndices t.root = List.range
      (match entry with
      | .statement => t.tokens.size
      | .expression _ => t.tokens.size - 1) ∧
    (∀ id < t.size, t.Covers id (entry.lastLeaf t id)) ∧
    (entry = .statement → t.label t.root = .singleStatement) := by
  cases entry with
  | statement =>
    obtain ⟨e, cs, n, hx, htile, -, hn⟩ := statement_tree h
    obtain hroot : 0 = t.root := Slot.node.inj hx.slot_eq
    have hmem := hx.root_mem
    have hcovers : t.Covers 0 [n] := hx.covers [n] hmem htile
    obtain ⟨_, hnode⟩ := hx.holds.node_eq
    refine ⟨?_, fun id hid => ?_, fun _ => ?_⟩
    · rw [← hroot, hcovers.leafIndices_eq, hnode, ← hn, List.range_succ, List.range_eq_range']
      rfl
    · by_cases hid0 : id = t.root
      · rw [Entry.lastLeaf, if_pos ⟨rfl, hid0⟩, hid0, ← hroot, ← hn]
        exact hcovers
      · rw [Entry.lastLeaf, if_neg fun h => hid0 h.2]
        obtain ⟨l, span, e', children, hy⟩ := hx.exists_mem_nodes hid
        have hbelow : Subtree.node id l span e' children ∈ nodesOf (cs ++ [.token n]) := by
          rw [nodes, List.mem_cons] at hy
          rcases hy with hy | hy
          · exact absurd ((Subtree.node.inj hy).1.trans hroot) hid0
          · exact hy
        have htile : AllTile (cs ++ [.token n]) 0 (n + 1) :=
          htile.append ⟨n + 1, ⟨rfl, rfl⟩, rfl⟩
        obtain ⟨i, j, -, -, htiles⟩ := htile.of_mem_nodesOf hbelow
        exact hx.covers_of_tiles hy htiles
    · rw [← hroot, ParseTree.label, hnode]
  | expression floor =>
    obtain ⟨x, n, hx, htiles, -, hn⟩ := expression_tree h
    refine ⟨?_, fun id hid => ?_, fun h => by cases h⟩
    · have hmem := hx.root_mem
      obtain ⟨l, span, e, cs, rfl⟩ := hx.exists_root
      rw [hx.leafIndices_eq hmem, htiles.leafIndices, ← hn, List.range_eq_range']
      rfl
    · rw [Entry.lastLeaf, if_neg fun h => by cases h.1]
      obtain ⟨l, span, e, children, hy⟩ := hx.exists_mem_nodes hid
      obtain ⟨i, j, -, -, hty⟩ := htiles.of_mem_nodes hy
      exact hx.covers_of_tiles hy hty

/-- The tree of `from s | where (a | limit a 1 |` has errors, and covers its tokens. -/
theorem parse_covers_recovered :
    ∃ t, Entry.parse ⟨20, .recover⟩ ([Kind.fromCmd, .sourceName, .pipe, .whereCmd, .leftParen,
      .name, .pipe, .limitCmd, .name, .integer, .pipe].map Token.ofKind) .statement = .ok t ∧
      t.isValid = false ∧ t.leafIndices t.root = List.range t.tokens.size ∧
      ∀ id < t.size, t.Covers id (Entry.statement.lastLeaf t id) := by
  obtain ⟨t, h, hv⟩ : ∃ t, Entry.parse ⟨20, .recover⟩ ([Kind.fromCmd, .sourceName, .pipe,
      .whereCmd, .leftParen, .name, .pipe, .limitCmd, .name, .integer, .pipe].map Token.ofKind)
      .statement = .ok t ∧ t.isValid = false := by
    decide +kernel
  obtain ⟨hleaves, hcovers, -⟩ := parse_covers .statement h
  exact ⟨t, h, hv, hleaves, hcovers⟩

end Parser

end PipeQuery

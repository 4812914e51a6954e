import PipeQuery.Proofs.Parser.Invariants
import PipeQuery.Proofs.Tree.Linked

/-!
# The tree of a parse is one tree

While a query is parsed, rules are left early, nodes are wrapped while their rule is still open, and
the root itself may be wrapped. Whatever happens, the nodes that are left at the end are one tree,
and nothing in it refers to a node or a token that does not exist.

## Main results

* `parse_leafIndices`: the leaves below the root are tokens of the tree
* `parse_isTree`: the nodes of every tree that a parse returns are one tree
-/

namespace PipeQuery.Parser

open Token (Kind)

variable {options : Options} {tokens : List Token} {t : ParseTree}

/-- The tree of a parse consists of the nodes of one subtree, whose leaves are its tokens. -/
theorem parse_leafIndices (entry : Entry) (h : entry.parse options tokens = .ok t) :
    ∃ x, t.IsWhole x ∧ ∀ i ∈ x.branch.leafIndices, i < t.tokens.size := by
  obtain ⟨l, e, cs, last, n, hx, htile, hlast, -, hn⟩ := parse_root entry h
  refine ⟨_, hx, fun i hi => ?_⟩
  -- A leaf is one of the tokens that the root spans, or the end of the input behind them.
  rw [Subtree.branch, Branch.leafIndices, Subtree.leafIndicesOf_append, htile.leafIndices,
    Subtree.leafIndicesOf_tokens, List.mem_append] at hi
  rcases hi with hi | hi
  · have := List.mem_range'_1.mp hi
    omega
  · have := hlast i hi
    omega

/-- **The nodes of a tree are one tree.** Whatever tokens are parsed, with whatever options and as
whatever they are taken for: all nodes hang below the root, each but the root has one slot at its
parent and no other, and every place that is referred to exists. -/
theorem parse_isTree (entry : Entry) (h : entry.parse options tokens = .ok t) : t.IsTree := by
  obtain ⟨x, hx, hleaf⟩ := parse_leafIndices entry h
  obtain ⟨s, hreports, hnodes, hreported⟩ :=
    reports_invariant.parse entry Arena.reports_empty h
  refine hx.isTree hleaf ?_
  intro id hid
  rw [hreported] at hid
  have hlt := hreports.lt_size hid
  rwa [Arena.size, ← hnodes] at hlt

/-- In the tree of the expression `a or ) b` the root has been wrapped, and an error stands. -/
theorem parse_isTree_wrapped :
    ∃ t, Entry.parse ⟨20, .recover⟩ ([Kind.name, .orWord, .rightParen, .name].map Token.ofKind)
      (.expression 0) = .ok t ∧ (t.root ≠ 0 ∧ t.isValid = false) ∧ t.IsTree := by
  obtain ⟨t, h, hroot⟩ : ∃ t, Entry.parse ⟨20, .recover⟩
      ([Kind.name, .orWord, .rightParen, .name].map Token.ofKind) (.expression 0) = .ok t ∧
        (t.root ≠ 0 ∧ t.isValid = false) := by
    decide +kernel
  exact ⟨t, h, hroot, parse_isTree (.expression 0) h⟩

end PipeQuery.Parser

import PipeQuery.Tree.Arena

/-!
# Parse trees

A finished tree: the tokens it was built from, the nodes, the root, and the nodes with errors.

## Main definitions

* `ParseTree`, `Arena.finish`: a tree, and the tree of an arena
* `ParseTree.label`, `ParseTree.children`, `ParseTree.childNodes`, `ParseTree.directTokens`, ...:
  what a node is made of
-/

namespace PipeQuery

/-- A parse tree and the tokens it was built from. -/
structure ParseTree where
  tokens : Array Token
  nodes : Array Node
  root : NodeId
  /-- The nodes that got an error, in the order in which the errors were attached. -/
  reported : Array NodeId
deriving DecidableEq, Inhabited

/-- The tree of an arena, if it has a root. -/
def Arena.finish (a : Arena) (tokens : Array Token) : Option ParseTree :=
  a.root.map fun root => ⟨tokens, a.nodes, root, a.reported⟩

namespace ParseTree

variable (t : ParseTree)

/-- The number of nodes. -/
def size : Nat := t.nodes.size

/-- The node at `id`. Every node that a tree refers to stands in its array. -/
def node (id : NodeId) : Node := t.nodes[id]?.getD default

/-- The token at a place. Every token that a tree refers to stands in its array. -/
def token (index : Nat) : Token := t.tokens[index]?.getD default

/-- The label of a node. -/
def label (id : NodeId) : Label := (t.node id).label

/-- The rule of a node. -/
def rule (id : NodeId) : Rule := (t.label id).rule

/-- The children of a node, in order. -/
def children (id : NodeId) : List Slot := (t.node id).children.toList

/-- The nodes among the children of a node. -/
def childNodes (id : NodeId) : List NodeId :=
  (t.children id).filterMap fun
    | .node c => some c
    | _ => none

/-- The matched tokens among the children of a node. -/
def directTokens (id : NodeId) : List Token :=
  (t.children id).filterMap fun
    | .token i => some (t.token i)
    | _ => none

/-- The first matched token of a node. -/
def firstToken? (id : NodeId) : Option Token := (t.directTokens id).head?

/-- Whether a node has an error or drops a token, its descendants not counted. -/
def isFaulty (id : NodeId) : Bool :=
  (t.node id).error.isSome ||
    (t.children id).any fun
      | .discarded _ => true
      | _ => false

/-- The errors of the tree by the places of their tokens; errors at the same token stay in the
order in which they were attached. -/
def diagnostics : List SyntaxError :=
  (t.reported.toList.filterMap fun id => (t.node id).error).mergeSort
    fun e e' => e.index ≤ e'.index

end ParseTree

end PipeQuery

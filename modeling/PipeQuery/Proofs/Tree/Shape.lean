import PipeQuery.Grammar.Production
import PipeQuery.Tree.Branch
import PipeQuery.Tree.Walk

/-!
# Shapes of trees

The shape of a tree: its labels and the kinds of its tokens, without the places of the nodes in an
arena and of the tokens in a stream. The grammar speaks of shapes only.

## Main definitions

* `Shape`: a tree of labels and kinds
* `Branch.shape`, `ParseTree.shape`: the shape of a subtree
* `ParseTree.word`: the kinds of the tokens of a node
* `Shape.symbol?`, `ParseTree.symbol?`: the symbol that a subtree, or the child of a node, stands for
* `ParseTree.Spells`: a node whose children spell an alternative of its rule
-/

namespace PipeQuery

open Token (Kind)

/-- A tree of labels and kinds of tokens. -/
inductive Shape where
  | node (label : Label) (children : List Shape)
  | token (kind : Kind)
  /-- A token that was dropped after an error. -/
  | discarded (kind : Kind)

/-- The symbol that a tree stands for. A token that was dropped stands for none. -/
def Shape.symbol? : Shape → Option Symbol
  | node label _ => some (.rule label.rule)
  | token kind => some (.token kind)
  | discarded _ => none

namespace Branch

mutual

/-- The shape of a subtree. -/
def shape (t : ParseTree) : Branch → Shape
  | node id children => .node (t.label id) (shapes t children)
  | token i => .token (t.token i).kind
  | discarded i => .discarded (t.token i).kind

/-- The shapes of subtrees side by side. -/
def shapes (t : ParseTree) : List Branch → List Shape
  | [] => []
  | b :: bs => shape t b :: shapes t bs

end

end Branch

namespace ParseTree

variable (t : ParseTree)

/-- The shape of the subtree of a node. -/
def shape (id : NodeId) : Shape := (t.branch id).shape t

/-- The kinds of the tokens of a node. -/
def word (id : NodeId) : List Kind := (t.leafIndices id).map fun i => (t.token i).kind

/-- The symbol that a child of a node stands for. -/
def symbol? : Slot → Option Symbol
  | .node id => some (.rule (t.rule id))
  | .token i => some (.token (t.token i).kind)
  | .discarded _ => none

/-- A node whose children spell an alternative of the grammar with the label of the node. -/
def Spells (id : NodeId) : Prop :=
  ∃ body, Production (t.label id) body ∧ (t.children id).map t.symbol? = body.map some

end ParseTree

end PipeQuery

import PipeQuery.Tree.Basic

/-!
# Walking a tree

What is asked of the subtree of a node is found without recursion, since a tree may be as deep as it
is large. What is still to be looked at stands on a stack, the next of it last: a node is taken off
the stack and its children are put on it in reverse.

## Main definitions

* `ParseTree.preorder`: the nodes of a subtree, each before those below it
* `ParseTree.leafIndices`, `ParseTree.leaves`: the tokens of a subtree
* `ParseTree.find?`, `ParseTree.hasErrors`, `ParseTree.isValid`, `ParseTree.text`: what is asked of
  a subtree
-/

namespace PipeQuery

namespace ParseTree

variable (t : ParseTree)

/-- More steps than any loop takes that goes through the whole tree. -/
def walkLength : Nat := t.nodes.foldl (fun n node => n + node.children.size) (2 * t.size)

/-! ## Nodes -/

/-- The next node of a stack, and the stack with its children in its place. -/
def nextNode? (stack : Array NodeId) : Option (NodeId × Array NodeId) :=
  stack.back?.map fun id => (id, stack.pop ++ (t.childNodes id).reverse)

/-- The nodes on the stack and those below them, at most `n`, behind those already met. -/
def preorderFrom : Nat → Array NodeId → Array NodeId → Array NodeId
  | 0, _, met => met
  | n + 1, stack, met =>
    match t.nextNode? stack with
    | none => met
    | some (id, stack) => preorderFrom n stack (met.push id)

/-- The nodes of the subtree of a node, each before those below it. -/
def preorder (id : NodeId) : List NodeId := (t.preorderFrom t.walkLength #[id] #[]).toList

/-! ## Leaves -/

/-- The tokens among the pending children and below them, behind those already met. At most `n`
children are looked at. -/
def leavesFrom : Nat → Array Slot → Array Nat → Array Nat
  | 0, _, met => met
  | n + 1, pending, met =>
    match pending.back? with
    | none => met
    | some (.node c) => leavesFrom n (pending.pop ++ (t.children c).reverse) met
    | some (.token i) | some (.discarded i) => leavesFrom n pending.pop (met.push i)

/-- The places of the tokens below a node, discarded ones included. -/
def leafIndices (id : NodeId) : List Nat :=
  (t.leavesFrom t.walkLength (t.children id).reverse.toArray #[]).toList

/-- The tokens below a node, discarded ones included. -/
def leaves (id : NodeId) : List Token := (t.leafIndices id).map t.token

/-- The texts of the tokens below a node, the end of the input left out. -/
def text (id : NodeId) : String :=
  String.join (((t.leaves id).filter (!·.isEof)).map Token.text)

/-! ## Questions -/

/-- The first node with a label in the subtree of a node. -/
def find? (id : NodeId) (label : Label) : Option NodeId :=
  (t.preorder id).find? fun i => t.label i = label

/-- Whether there is an error or a discarded token in the subtree of a node. -/
def hasErrors (id : NodeId) : Bool := (t.preorder id).any t.isFaulty

/-- Whether the tree has no error and no discarded token. -/
def isValid : Bool := !t.hasErrors t.root

/-- Whether each node of the tree is the parent of the nodes among its children and covers their
tokens. -/
def isLinked : Bool :=
  (t.preorder t.root).all fun id =>
    (t.childNodes id).all fun c =>
      (t.node c).parent = some id && (t.node id).span.contains (t.node c).span

end ParseTree

end PipeQuery

import PipeQuery.Tree.Basic

/-!
# Trees as nested values

The subtree of a node as a nested value, and what is written about trees by recursion on it. A
walk through an arena gives the same, without recursion.

## Main definitions

* `Branch`, `ParseTree.branch`: the subtree of a node as a nested value
* `Branch.leafIndices`, `Branch.preorder`: the leaves and nodes of a subtree
* `Branch.toJson`: its JSON form
* `Branch.lisp`: its form in nested parentheses
-/

namespace PipeQuery

/-- The subtree of a node, or a leaf. -/
inductive Branch where
  | node (id : NodeId) (children : List Branch)
  | token (index : Nat)
  | discarded (index : Nat)

namespace ParseTree

variable (t : ParseTree)

/-- The subtree of a node, down to the depth `n`. -/
def branchTo : Nat → NodeId → Branch
  | 0, id => .node id []
  | n + 1, id =>
    .node id <| (t.children id).map fun
      | .node c => branchTo n c
      | .token i => .token i
      | .discarded i => .discarded i

/-- The subtree of a node. No branch of a tree is longer than the tree has nodes. -/
def branch (id : NodeId) : Branch := t.branchTo t.size id

/-- The JSON form of a token below a node. -/
def leafJson (index : Nat) (isDiscarded : Bool) : Json :=
  .object (("token", (t.token index).toJson) ::
    if isDiscarded then [("discarded", .bool true)] else [])

/-- The fields of the JSON form of a node, less the last one with its children. -/
def headFields (id : NodeId) : List (String × Json) :=
  let n := t.node id
  ("rule", Json.string n.label.rule.name) ::
    ((if n.label.isAlternative then [("label", Json.string n.label.name)] else []) ++
      ("span", n.span.toJson) ::
        (n.error.toList.map fun e => ("error", e.toJson)))

end ParseTree

namespace Branch

mutual

/-- The places of the tokens of a subtree. -/
def leafIndices : Branch → List Nat
  | node _ children => leafIndicesOf children
  | token i | discarded i => [i]

/-- The places of the tokens of subtrees side by side. -/
def leafIndicesOf : List Branch → List Nat
  | [] => []
  | b :: bs => leafIndices b ++ leafIndicesOf bs

end

mutual

/-- The nodes of a subtree, each before those below it. -/
def preorder : Branch → List NodeId
  | node id children => id :: preorderOf children
  | token _ | discarded _ => []

/-- The nodes of subtrees side by side. -/
def preorderOf : List Branch → List NodeId
  | [] => []
  | b :: bs => preorder b ++ preorderOf bs

end

mutual

/-- The JSON form of a subtree. -/
def toJson (t : ParseTree) : Branch → Json
  | node id children =>
    .object (t.headFields id ++ [("children", .array (toJsons t children))])
  | token i => t.leafJson i false
  | discarded i => t.leafJson i true

/-- The JSON forms of subtrees side by side. -/
def toJsons (t : ParseTree) : List Branch → List Json
  | [] => []
  | b :: bs => toJson t b :: toJsons t bs

end

mutual

/-- A subtree in nested parentheses. A node without children stands without parentheses. -/
def lisp (t : ParseTree) : Branch → String
  | node id [] => (t.rule id).name
  | node id (b :: bs) => "(" ++ (t.rule id).name ++ lispTail t (b :: bs) ++ ")"
  | token i | discarded i => (t.token i).text

/-- Subtrees side by side, each behind a space. -/
def lispTail (t : ParseTree) : List Branch → String
  | [] => ""
  | b :: bs => " " ++ lisp t b ++ lispTail t bs

end

end Branch

namespace ParseTree

/-- The JSON form of a tree. -/
def toJson (t : ParseTree) : Json := (t.branch t.root).toJson t

end ParseTree

end PipeQuery

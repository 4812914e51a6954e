import PipeQuery.Tree.Branch
import PipeQuery.Tree.Walk

/-!
# Listening to a walk

A walk goes depth first through the subtree of a node and calls a listener on its way: twice when a
node is entered, once as every rule and once by its label, twice again in the other order when it is
left, and once for each token. The nodes that are entered and not yet left stand on a stack, each
with the number of its children that are visited.

## Main definitions

* `Call`: a call of a listener
* `ParseTree.walkNode`: the walk through the subtree of a node
* `Event`, `Event.display`: what a recording listener keeps of a call, and how it is written
* `ParseTree.calls`, `ParseTree.events`: what two recording listeners keep of a walk
* `Branch.calls`: the calls by recursion on the nested tree
-/

namespace PipeQuery

/-- A call of a listener. -/
inductive Call where
  | enterEveryRule (id : NodeId)
  /-- Enter a node by its label. -/
  | enter (label : Label) (id : NodeId)
  | exit (label : Label) (id : NodeId)
  | exitEveryRule (id : NodeId)
  /-- Visit a matched token. -/
  | visitTerminal (index : Nat)
  /-- Visit a discarded token. -/
  | visitErrorNode (index : Nat)
deriving DecidableEq

namespace ParseTree

variable (t : ParseTree)

/-- The calls made when a node is entered. -/
def entering (id : NodeId) : List Call := [.enterEveryRule id, .enter (t.label id) id]

/-- The calls made when a node is left. -/
def leaving (id : NodeId) : List Call := [.exit (t.label id) id, .exitEveryRule id]

section Walk

variable {σ : Type} (listen : σ → Call → σ)

/-- Visit what is left of the nodes on the stack, in at most `n` steps. With each node stands the
number of its children that are visited. -/
def walkFrom : Nat → Array (NodeId × Nat) → σ → σ
  | 0, _, s => s
  | n + 1, stack, s =>
    match stack.back? with
    | none => s
    | some (id, visited) =>
      match (t.node id).children[visited]? with
      | none => walkFrom n stack.pop ((t.leaving id).foldl listen s)
      | some slot =>
        let stack := stack.pop.push (id, visited + 1)
        match slot with
        | .node c => walkFrom n (stack.push (c, 0)) ((t.entering c).foldl listen s)
        | .token i => walkFrom n stack (listen s (.visitTerminal i))
        | .discarded i => walkFrom n stack (listen s (.visitErrorNode i))

/-- Walk through the subtree of a node with a listener in the state `s`. -/
def walkNode (s : σ) (id : NodeId) : σ :=
  t.walkFrom listen t.walkLength #[(id, 0)] ((t.entering id).foldl listen s)

end Walk

/-- The calls made by the walk through the subtree of a node. -/
def calls (id : NodeId) : List Call := (t.walkNode Array.push #[] id).toList

end ParseTree

/-! ## What is kept of a call -/

/-- What a recording listener keeps of a call. -/
inductive Event where
  | enterEvery (rule : Rule)
  | enter (label : Label)
  | exit (label : Label)
  | exitEvery (rule : Rule)
  | terminal (text : String)
  | errorNode (text : String)
deriving DecidableEq

/-- A name with its words in lower case and joined by underscores. -/
def snakeCase (s : String) : String :=
  String.ofList (s.toList.flatMap fun c => if c.isUpper then ['_', c.toLower] else [c])

/-- How a call is written. -/
def Event.display : Event → String
  | enterEvery rule => ">" ++ rule.name
  | enter label => "enter_" ++ snakeCase label.name
  | exit label => "exit_" ++ snakeCase label.name
  | exitEvery rule => "<" ++ rule.name
  | terminal text => "t:" ++ text
  | errorNode text => "e:" ++ text

namespace ParseTree

variable (t : ParseTree)

/-- What is kept of a call. -/
def event : Call → Event
  | .enterEveryRule id => .enterEvery (t.rule id)
  | .enter label _ => .enter label
  | .exit label _ => .exit label
  | .exitEveryRule id => .exitEvery (t.rule id)
  | .visitTerminal i => .terminal (t.token i).text
  | .visitErrorNode i => .errorNode (t.token i).text

/-- What is kept of the walk through the subtree of a node. -/
def events (id : NodeId) : List Event :=
  (t.walkNode (fun es c => es.push (t.event c)) #[] id).toList

end ParseTree

/-! ## Calls by recursion -/

namespace Branch

mutual

/-- The calls made for a subtree, by recursion on it. -/
def calls (t : ParseTree) : Branch → List Call
  | node id children => t.entering id ++ callsOf t children ++ t.leaving id
  | token i => [.visitTerminal i]
  | discarded i => [.visitErrorNode i]

/-- The calls made for subtrees side by side. -/
def callsOf (t : ParseTree) : List Branch → List Call
  | [] => []
  | b :: bs => calls t b ++ callsOf t bs

end

end Branch

end PipeQuery

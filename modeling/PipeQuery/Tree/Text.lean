import PipeQuery.Tree.Branch
import PipeQuery.Tree.Walk

/-!
# The written forms of a tree

All forms are written with a stack. In nested parentheses and in JSON it holds the nodes that are not
yet closed, and how many of their children are written; where each node has a line of its own, it
holds what is still to be written, and how deep it stands.

## Main definitions

* `ParseTree.lisp`: nested parentheses on one line
* `ParseTree.outline`: one line for each node and token, indented by depth
* `ParseTree.jsonText`: JSON, compact or indented
* `ParseTree.summary`: one line about a node
* `Branch.outline`: the outline by recursion on the nested tree
-/

namespace PipeQuery

namespace ParseTree

variable (t : ParseTree)

/-! ## Nested parentheses -/

/-- Open a node behind `out`: write its name, behind a parenthesis if it has children. These are
then to be written, so it goes on the stack. -/
def openLisp (id : NodeId) (stack : Array (NodeId × Nat)) (out : String) :
    Array (NodeId × Nat) × String :=
  if (t.node id).children.isEmpty then (stack, out ++ (t.rule id).name)
  else (stack.push (id, 0), out ++ "(" ++ (t.rule id).name)

/-- Write behind `out` what is left of the nodes on the stack, in at most `n` steps. With each node
stands the number of its children that are written. -/
def lispFrom : Nat → Array (NodeId × Nat) → String → String
  | 0, _, out => out
  | n + 1, stack, out =>
    match stack.back? with
    | none => out
    | some (id, written) =>
      match (t.node id).children[written]? with
      | none => lispFrom n stack.pop (out ++ ")")
      | some slot =>
        let stack := stack.pop.push (id, written + 1)
        let out := out ++ " "
        match slot with
        | .node c =>
          let (stack, out) := t.openLisp c stack out
          lispFrom n stack out
        | .token i | .discarded i => lispFrom n stack (out ++ (t.token i).text)

/-- The subtree of a node in nested parentheses, with the names of the rules. -/
def lispOf (id : NodeId) : String :=
  let (stack, out) := t.openLisp id #[] ""
  t.lispFrom t.walkLength stack out

/-- The tree in nested parentheses. -/
def lisp : String := t.lispOf t.root

/-! ## Outline -/

/-- The line of a node: its rule, its alternative in brackets and the wording of its error. -/
def nodeLine (id : NodeId) : String :=
  let n := t.node id
  let alternative := if n.label.isAlternative then " [" ++ n.label.name ++ "]" else ""
  let error := (n.error.map fun e => "  <- " ++ e.message).getD ""
  n.label.rule.name ++ alternative ++ error ++ "\n"

/-- The line of a token. A discarded one is marked. -/
def leafLine (index : Nat) (isDiscarded : Bool) : String :=
  (if isDiscarded then "!'" else "'") ++ (t.token index).text ++ "'\n"

/-- What stands before the line of a node or token `depth` nodes deep. -/
def indentation (depth : Nat) : String := "".pushn ' ' (2 * depth)

/-- The line of a node or token. -/
def slotLine : Slot → String
  | .node id => t.nodeLine id
  | .token i => t.leafLine i false
  | .discarded i => t.leafLine i true

/-- Write behind `out` a line for each of the pending nodes and tokens and what is below them, at
most `n` lines. With each of them stands its depth. -/
def outlineFrom : Nat → Array (Slot × Nat) → String → String
  | 0, _, out => out
  | n + 1, pending, out =>
    match pending.back? with
    | none => out
    | some (slot, depth) =>
      let out := out ++ (indentation depth ++ t.slotLine slot)
      match slot with
      | .node id =>
        outlineFrom n (pending.pop ++ ((t.children id).map (·, depth + 1)).reverse) out
      | .token _ | .discarded _ => outlineFrom n pending.pop out

/-- The tree with one line for each node and each token. -/
def outline : String := t.outlineFrom t.walkLength #[(.node t.root, 0)] ""

/-! ## JSON -/

section Json

variable (indented : Bool)

/-- A line break and the indentation of a level, in the indented layout. -/
def jsonBreak (level : Nat) : String := if indented then Json.lineBreak level else ""

/-- A value in the chosen layout, written on its own and moved to a level. -/
def jsonValue (level : Nat) (j : Json) : String :=
  -- A string is written on one line, so that every line break belongs to the layout.
  if indented then Json.reindent level (j.indented 0) else j.compact

/-- A key and the colon behind it, on a line of its own. A comma stands before every key but the
first of its node. -/
def jsonKey (level : Nat) (key : String) (first : Bool) : String :=
  (if first then "" else ",") ++ jsonBreak indented level ++ "\"" ++ key ++ "\":" ++
    if indented then " " else ""

/-- A key with its value. -/
def jsonField (level : Nat) (key : String) (first : Bool) (j : Json) : String :=
  jsonKey indented level key first ++ jsonValue indented level j

/-- The keys of a node and their values up to the opening bracket of its children. -/
def jsonHead (level : Nat) (id : NodeId) : String :=
  let n := t.node id
  let label :=
    if n.label.isAlternative then
      jsonField indented (level + 1) "label" false (.string n.label.name)
    else ""
  let error :=
    match n.error with
    | some e => jsonField indented (level + 1) "error" false e.toJson
    | none => ""
  "\x7b" ++ jsonField indented (level + 1) "rule" true (.string n.label.rule.name) ++ label ++
    jsonField indented (level + 1) "span" false n.span.toJson ++ error ++
    jsonKey indented (level + 1) "children" false ++ "["

/-- What stands before a child: a comma if others are written before it, and a line break. -/
def jsonGap (level written : Nat) : String :=
  (if written = 0 then "" else ",") ++ jsonBreak indented level

/-- The brackets that end a node, of whose children so many are written. -/
def jsonTail (level written : Nat) : String :=
  (if written = 0 then "" else jsonBreak indented (level + 1)) ++ "]" ++ jsonBreak indented level ++
    "\x7d"

/-- Write behind `out` what is left of the nodes on the stack, in at most `n` steps. With each node
stands the number of its children that are written. A node below `d` others stands at the level
`2 * d`, and its children two levels deeper. -/
def jsonFrom : Nat → Array (NodeId × Nat) → String → String
  | 0, _, out => out
  | n + 1, stack, out =>
    match stack.back? with
    | none => out
    | some (id, written) =>
      let level := 2 * (stack.size - 1)
      match (t.node id).children[written]? with
      | none => jsonFrom n stack.pop (out ++ jsonTail indented level written)
      | some slot =>
        let stack := stack.pop.push (id, written + 1)
        let out := out ++ jsonGap indented (level + 2) written
        match slot with
        | .node c => jsonFrom n (stack.push (c, 0)) (out ++ t.jsonHead indented (level + 2) c)
        | .token i =>
          jsonFrom n stack (out ++ jsonValue indented (level + 2) (t.leafJson i false))
        | .discarded i =>
          jsonFrom n stack (out ++ jsonValue indented (level + 2) (t.leafJson i true))

/-- The JSON text of the tree. -/
def jsonText : String :=
  t.jsonFrom indented t.walkLength #[(t.root, 0)] (t.jsonHead indented 0 t.root)

end Json

/-! ## One node -/

/-- A line about a node: its place in the arena, its label and the tokens it covers. -/
def summary (id : NodeId) : String :=
  let span := (t.node id).span
  "NodeRef \x7b id: NodeId(" ++ toString id ++ "), kind: " ++ (t.label id).name.capitalize ++
    ", span: TokenSpan \x7b start: " ++ toString span.start ++ ", stop: " ++ toString span.stop ++
    " \x7d \x7d"

end ParseTree

/-! ## The outline by recursion -/

namespace Branch

mutual

/-- The outline of a subtree that stands `depth` nodes deep. -/
def outline (t : ParseTree) (depth : Nat) : Branch → String
  | node id children =>
    ParseTree.indentation depth ++ t.nodeLine id ++ outlineOf t (depth + 1) children
  | token i => ParseTree.indentation depth ++ t.leafLine i false
  | discarded i => ParseTree.indentation depth ++ t.leafLine i true

/-- The outlines of subtrees side by side. -/
def outlineOf (t : ParseTree) (depth : Nat) : List Branch → String
  | [] => ""
  | b :: bs => outline t depth b ++ outlineOf t depth bs

end

end Branch

end PipeQuery

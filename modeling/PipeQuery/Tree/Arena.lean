import PipeQuery.Tree.SyntaxError

/-!
# The arena of a parse tree

The nodes of a tree stand in one array, in the order in which they were opened, and refer to each
other by their places in it. A node is opened below its parent, filled with tokens and nodes,
and closed; a left-recursive rule wraps the node it has built so far in a new one.

## Main definitions

* `NodeId`, `Slot`, `TokenSpan`, `Node`: a node and what it is made of
* `Arena`: the nodes, the root, and the nodes with errors in the order of the errors
* `Arena.openNode`, `Arena.push`, `Arena.relabel`, `Arena.attach`, `Arena.close`, `Arena.wrap`:
  how a tree is built

## Main results

* `Arena.size_openNode`, `Arena.size_wrap`, `Arena.size_modify`: opening and wrapping add one node,
  and nothing else adds any
-/

namespace PipeQuery

/-- The place of a node in its arena. -/
abbrev NodeId := Nat

/-- A child of a node. -/
inductive Slot where
  | node (id : NodeId)
  /-- A token that was matched, by its place in the stream. -/
  | token (index : Nat)
  /-- A token that was dropped after an error, by its place in the stream. -/
  | discarded (index : Nat)
deriving DecidableEq

/-- The tokens from place `start` up to place `stop`, which is not among them. -/
structure TokenSpan where
  start : Nat
  stop : Nat
deriving DecidableEq, Inhabited

namespace TokenSpan

/-- The number of tokens covered. -/
def length (s : TokenSpan) : Nat := s.stop - s.start

/-- Whether no token is covered. -/
def isEmpty (s : TokenSpan) : Bool := s.length == 0

/-- Whether the span `t` lies inside `s`. -/
def contains (s t : TokenSpan) : Bool := s.start ≤ t.start && t.stop ≤ s.stop

/-- The span as a JSON object. -/
def toJson (s : TokenSpan) : Json := .object [("start", .nat s.start), ("stop", .nat s.stop)]

end TokenSpan

/-- A node of a parse tree. -/
structure Node where
  label : Label
  parent : Option NodeId
  children : Array Slot
  span : TokenSpan
  error : Option SyntaxError
deriving DecidableEq, Inhabited

/-- A tree under construction. -/
structure Arena where
  nodes : Array Node
  root : Option NodeId
  /-- The nodes that got an error, in the order in which the errors were attached. -/
  reported : Array NodeId
deriving DecidableEq

namespace Arena

/-- No nodes. -/
def empty : Arena := ⟨#[], none, #[]⟩

instance : Inhabited Arena := ⟨empty⟩

/-- The number of nodes. -/
def size (a : Arena) : Nat := a.nodes.size

/-- The arena with the node at `id` changed by `f`. -/
def modify (a : Arena) (id : NodeId) (f : Node → Node) : Arena :=
  { a with nodes := a.nodes.modify id f }

/-- Put `slot` behind the children of a node. -/
def push (a : Arena) (id : NodeId) (slot : Slot) : Arena :=
  a.modify id fun n => { n with children := n.children.push slot }

/-- Open a node below `parent` at the token `start`; it becomes the next node of the arena. The
first node without a parent is the root. -/
def openNode (a : Arena) (label : Label) (parent : Option NodeId) (start : Nat) : Arena :=
  let id := a.size
  let a : Arena := { a with nodes := a.nodes.push ⟨label, parent, #[], ⟨start, start⟩, none⟩ }
  match parent with
  | some p => a.push p (.node id)
  | none => { a with root := a.root.or (some id) }

/-- End a node before the token `stop`, but not before its own start. -/
def close (a : Arena) (id : NodeId) (stop : Nat) : Arena :=
  a.modify id fun n => { n with span := ⟨n.span.start, max stop n.span.start⟩ }

/-- Give a node another label. -/
def relabel (a : Arena) (id : NodeId) (label : Label) : Arena :=
  a.modify id fun n => { n with label := label }

/-- Attach an error to a node, unless the node has one already. -/
def attach (a : Arena) (id : NodeId) (e : SyntaxError) : Arena :=
  match a.nodes[id]? with
  | some ⟨_, _, _, _, none⟩ =>
    { a.modify id (fun n => { n with error := some e }) with reported := a.reported.push id }
  | _ => a

/-- The slot with the node `prev` replaced by the node `id`. -/
def replaceSlot (prev id : NodeId) (slot : Slot) : Slot :=
  if slot = .node prev then .node id else slot

/-- End the node `prev` before the token `stop` and put it into a new node, the next of the
arena, which takes its place in the tree. -/
def wrap (a : Arena) (prev : NodeId) (label : Label) (stop : Nat) : Arena :=
  let a := a.close prev stop
  let id := a.size
  let old := a.nodes[prev]?.getD default
  -- The new node starts where the old one does, and is closed with its rule.
  let a : Arena := { a with nodes := a.nodes.push ⟨label, old.parent, #[.node prev], old.span, none⟩ }
  let a :=
    match old.parent with
    -- The old node's place among its siblings goes to the new one.
    | some p => a.modify p fun n => { n with children := n.children.map (replaceSlot prev id) }
    | none => { a with root := some id }
  a.modify prev fun n => { n with parent := some id }

@[simp]
theorem size_modify (a : Arena) (id : NodeId) (f : Node → Node) :
    (a.modify id f).size = a.size := by
  simp [modify, size]

@[simp]
theorem size_push (a : Arena) (id : NodeId) (slot : Slot) : (a.push id slot).size = a.size :=
  size_modify ..

@[simp]
theorem size_close (a : Arena) (id : NodeId) (stop : Nat) : (a.close id stop).size = a.size :=
  size_modify ..

@[simp]
theorem size_relabel (a : Arena) (id : NodeId) (l : Label) : (a.relabel id l).size = a.size :=
  size_modify ..

@[simp]
theorem size_attach (a : Arena) (id : NodeId) (e : SyntaxError) :
    (a.attach id e).size = a.size := by
  unfold attach
  split
  · exact size_modify ..
  · rfl

@[simp]
theorem size_openNode (a : Arena) (l : Label) (parent : Option NodeId) (start : Nat) :
    (a.openNode l parent start).size = a.size + 1 := by
  cases parent <;> simp [openNode, push, modify, size]

@[simp]
theorem size_wrap (a : Arena) (prev : NodeId) (l : Label) (stop : Nat) :
    (a.wrap prev l stop).size = a.size + 1 := by
  simp only [wrap, size_modify]
  split <;> simp [close, modify, size]

end Arena

end PipeQuery

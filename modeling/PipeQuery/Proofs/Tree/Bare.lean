import PipeQuery.Tree.Basic

/-!
# Trees without texts

The text and the place of a token reach a tree in two ways: the tree keeps its tokens, and each of
its errors keeps the token it points at. Without them the tree is bare. Nothing that builds a tree
looks at them, so a tree can be built bare as well.

## Main definitions

* `Token.bare`, `SyntaxError.bare`, `Arena.bare`, `ParseTree.bare`, `Failure.bare`: what is left
  without the texts and places of tokens
* `SyntaxError.Alike`, `Node.Alike`, `ParseTree.Alike`, `Failure.Alike`: the same up to the texts
  and places of tokens
* `AlikeOutcomes`: two outcomes that both are trees, or both are failures, and are alike

## Main results

* `Arena.bare_modify`, `Arena.bare_openNode`, `Arena.bare_attach`, `Arena.bare_wrap`: a tree can be
  built bare
* `alike_of_bare_eq`: what is the same when it is bare is alike
-/

namespace PipeQuery

/-! ## Bare tokens and errors -/

/-- The token without its text and place. -/
def Token.bare (t : Token) : Token := { (default : Token) with kind := t.kind }

@[simp]
theorem Token.kind_bare (t : Token) : t.bare.kind = t.kind := rfl

@[simp]
theorem Token.isEof_bare (t : Token) : t.bare.isEof = t.isEof := rfl

theorem Token.bare_eq_bare_iff {t t' : Token} : t.bare = t'.bare ↔ t.kind = t'.kind :=
  ⟨congrArg Token.kind, fun h => by rw [bare, bare, h]⟩

/-- The error at the bare token. -/
def SyntaxError.bare (e : SyntaxError) : SyntaxError := { e with token := e.token.bare }

/-- The failure with its error bare. -/
def Failure.bare : Failure → Failure
  | unrecoverable e => unrecoverable e.bare
  | bailed e => bailed e.bare
  | tooDeep e => tooDeep e.bare
  | emptyInput => emptyInput

/-! ## Bare nodes -/

/-- The node with its error bare. -/
def Node.bare (n : Node) : Node := { n with error := n.error.map SyntaxError.bare }

namespace Arena

variable (a : Arena) {id : NodeId}

/-- The arena with its errors bare. -/
def bare : Arena := { a with nodes := a.nodes.map Node.bare }

@[simp]
theorem size_bare : a.bare.size = a.size := Array.size_map

theorem bare_modify {f g : Node → Node} (h : ∀ n, (f n).bare = g n.bare) :
    (a.modify id f).bare = a.bare.modify id g := by
  have hnodes : (a.nodes.modify id f).map Node.bare = (a.nodes.map Node.bare).modify id g := by
    apply Array.ext_getElem?
    intro i
    simp only [Array.getElem?_map, Array.getElem?_modify]
    split
    · cases a.nodes[i]? with
      | none => rfl
      | some n => exact congrArg some (h n)
    · rfl
  simp [bare, modify, hnodes]

theorem bare_push (slot : Slot) : (a.push id slot).bare = a.bare.push id slot :=
  a.bare_modify fun _ => rfl

theorem bare_close (stop : Nat) : (a.close id stop).bare = a.bare.close id stop :=
  a.bare_modify fun _ => rfl

theorem bare_relabel (label : Label) : (a.relabel id label).bare = a.bare.relabel id label :=
  a.bare_modify fun _ => rfl

theorem bare_add (label : Label) (parent : Option NodeId) (children : Array Slot)
    (span : TokenSpan) :
    bare { a with nodes := a.nodes.push ⟨label, parent, children, span, none⟩ } =
      { a.bare with nodes := a.bare.nodes.push ⟨label, parent, children, span, none⟩ } := by
  simp [bare, Node.bare]

theorem bare_openNode (label : Label) (parent : Option NodeId) (start : Nat) :
    (a.openNode label parent start).bare = a.bare.openNode label parent start := by
  have hnew := a.bare_add label parent #[] ⟨start, start⟩
  cases parent with
  | none =>
    rw [openNode, openNode, size_bare]
    exact congrArg (fun x : Arena => { x with root := a.root.or (some a.size) }) hnew
  | some p => rw [openNode, openNode, bare_push, hnew, size_bare]

theorem bare_attach (e : SyntaxError) : (a.attach id e).bare = a.bare.attach id e.bare := by
  have hget : a.bare.nodes[id]? = a.nodes[id]?.map Node.bare := Array.getElem?_map
  rw [attach, attach, hget]
  cases a.nodes[id]? with
  | none => rfl
  | some n =>
    obtain ⟨label, parent, children, span, error⟩ := n
    cases error with
    | none =>
      have hnode : (a.modify id fun n => { n with error := some e }).bare =
          a.bare.modify id fun n => { n with error := some e.bare } := a.bare_modify fun _ => rfl
      exact congrArg (fun x : Arena => { x with reported := a.reported.push id }) hnode
    | some e => rfl

theorem bare_wrap (label : Label) (stop : Nat) :
    (a.wrap id label stop).bare = a.bare.wrap id label stop := by
  have hold : (a.close id stop).bare.nodes[id]?.getD default =
      ((a.close id stop).nodes[id]?.getD default).bare := by
    show ((a.close id stop).nodes.map Node.bare)[id]?.getD default = _
    rw [Array.getElem?_map]
    cases (a.close id stop).nodes[id]? <;> rfl
  have hnew := (a.close id stop).bare_add label
  simp only [wrap]
  rw [bare_modify _ (g := fun n => { n with parent := some (a.close id stop).size }) fun _ => rfl,
    ← bare_close, size_bare, hold]
  congr 1
  -- Of the old node only the parent and the span matter, and those are kept.
  generalize (a.close id stop).nodes[id]?.getD default = old
  obtain ⟨-, parent, -, span, -⟩ := old
  cases parent with
  | none =>
    exact congrArg (fun x : Arena => { x with root := some (a.close id stop).size })
      (hnew none #[.node id] span)
  | some p =>
    let adopt (n : Node) : Node :=
      { n with children := n.children.map (replaceSlot id (a.close id stop).size) }
    exact (bare_modify _ (g := adopt) fun _ => rfl).trans
      (congrArg (fun x : Arena => x.modify p adopt) (hnew (some p) #[.node id] span))

end Arena

/-- The tree of bare tokens, with its errors bare. -/
def ParseTree.bare (t : ParseTree) : ParseTree :=
  { t with tokens := t.tokens.map Token.bare, nodes := t.nodes.map Node.bare }

theorem Arena.finish_bare (a : Arena) (tokens : Array Token) :
    a.bare.finish (tokens.map Token.bare) = (a.finish tokens).map ParseTree.bare := by
  rw [finish, finish, Option.map_map]
  rfl

/-! ## Up to texts and places -/

/-- Errors that are the same up to the text and the place of the token. -/
structure SyntaxError.Alike (e e' : SyntaxError) : Prop where
  cause_eq : e.cause = e'.cause
  rule_eq : e.rule = e'.rule
  index_eq : e.index = e'.index
  found_eq : e.token.kind = e'.token.kind
  expected_eq : e.expected = e'.expected

/-- Nodes that are the same up to the text and the place of the token of their error. -/
structure Node.Alike (n n' : Node) : Prop where
  label_eq : n.label = n'.label
  parent_eq : n.parent = n'.parent
  children_eq : n.children = n'.children
  span_eq : n.span = n'.span
  error_alike : Option.Rel SyntaxError.Alike n.error n'.error

/-- Trees that are the same up to the texts and places of tokens. -/
structure ParseTree.Alike (t t' : ParseTree) : Prop where
  kinds_eq : t.tokens.map Token.kind = t'.tokens.map Token.kind
  size_eq : t.size = t'.size
  node_alike : ∀ id, (t.node id).Alike (t'.node id)
  root_eq : t.root = t'.root
  reported_eq : t.reported = t'.reported

/-- Failures for the same reason, whose errors are the same up to the text and the place of the
token. -/
inductive Failure.Alike : Failure → Failure → Prop
  | unrecoverable {e e' : SyntaxError} (h : e.Alike e') : Alike (unrecoverable e) (unrecoverable e')
  | bailed {e e' : SyntaxError} (h : e.Alike e') : Alike (bailed e) (bailed e')
  | tooDeep {e e' : SyntaxError} (h : e.Alike e') : Alike (tooDeep e) (tooDeep e')
  | emptyInput : Alike emptyInput emptyInput

/-- Two outcomes of a parse: trees that are alike, or failures of which the relation `R` holds. -/
inductive AlikeOutcomes {ε : Type} (R : ε → ε → Prop) :
    Except ε ParseTree → Except ε ParseTree → Prop
  | tree {t t' : ParseTree} (h : t.Alike t') : AlikeOutcomes R (.ok t) (.ok t')
  | failure {f f' : ε} (h : R f f') : AlikeOutcomes R (.error f) (.error f')

theorem SyntaxError.alike_of_bare_eq {e e' : SyntaxError} (h : e.bare = e'.bare) : e.Alike e' := by
  simp only [bare, SyntaxError.mk.injEq, Token.bare_eq_bare_iff] at h
  obtain ⟨hcause, hrule, hindex, hfound, hexpected⟩ := h
  exact ⟨hcause, hrule, hindex, hfound, hexpected⟩

theorem Node.alike_of_bare_eq {n n' : Node} (h : n.bare = n'.bare) : n.Alike n' := by
  simp only [bare, Node.mk.injEq] at h
  obtain ⟨hlabel, hparent, hchildren, hspan, herror⟩ := h
  refine ⟨hlabel, hparent, hchildren, hspan, ?_⟩
  revert herror
  cases n.error with
  | none => cases n'.error with
    | none => exact fun _ => .none
    | some e' => exact fun h => by cases h
  | some e => cases n'.error with
    | none => exact fun h => by cases h
    | some e' => exact fun h => .some (SyntaxError.alike_of_bare_eq (Option.some.inj h))

theorem ParseTree.node_bare (t : ParseTree) (id : NodeId) : t.bare.node id = (t.node id).bare := by
  show (t.nodes.map Node.bare)[id]?.getD default = (t.nodes[id]?.getD default).bare
  rw [Array.getElem?_map]
  cases t.nodes[id]? <;> rfl

theorem ParseTree.alike_of_bare_eq {t t' : ParseTree} (h : t.bare = t'.bare) : t.Alike t' := by
  have hnode (id : NodeId) : (t.node id).bare = (t'.node id).bare := by
    rw [← node_bare, h, node_bare]
  simp only [bare, ParseTree.mk.injEq] at h
  obtain ⟨htokens, hnodes, hroot, hreported⟩ := h
  refine ⟨?_, ?_, fun id => Node.alike_of_bare_eq (hnode id), hroot, hreported⟩
  · have hkinds := congrArg (Array.map Token.kind) htokens
    rwa [Array.map_map, Array.map_map] at hkinds
  · have hsize := congrArg Array.size hnodes
    rwa [Array.size_map, Array.size_map] at hsize

theorem Failure.alike_of_bare_eq {f f' : Failure} (h : f.bare = f'.bare) : f.Alike f' := by
  cases f <;> cases f' <;>
    simp only [bare, reduceCtorEq, unrecoverable.injEq, bailed.injEq, tooDeep.injEq] at h
  case unrecoverable => exact .unrecoverable (SyntaxError.alike_of_bare_eq h)
  case bailed => exact .bailed (SyntaxError.alike_of_bare_eq h)
  case tooDeep => exact .tooDeep (SyntaxError.alike_of_bare_eq h)
  case emptyInput => exact .emptyInput

/-- The outcome without the texts and places of tokens. -/
def bareOutcome (o : Except Failure ParseTree) : Except Failure ParseTree :=
  (o.map ParseTree.bare).mapError Failure.bare

theorem alikeOutcomes_of_bare_eq {o o' : Except Failure ParseTree}
    (h : bareOutcome o = bareOutcome o') :
    AlikeOutcomes Failure.Alike o o' := by
  cases o with
  | ok t => cases o' with
    | ok t' => exact .tree (ParseTree.alike_of_bare_eq (Except.ok.inj h))
    | error f' => cases h
  | error f => cases o' with
    | ok t' => cases h
    | error f' => exact .failure (Failure.alike_of_bare_eq (Except.error.inj h))

end PipeQuery

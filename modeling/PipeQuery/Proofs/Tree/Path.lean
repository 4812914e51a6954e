import PipeQuery.Proofs.Tree.Whole

/-!
# Open paths

While a tree is built, the nodes that are still open lie on one path from the root down. Each of
them has its finished children to the left of the path, and nothing to the right of it. What a
parse does to the arena it does at the lower end of the path.

## Main definitions

* `Site`, `Path`: an open node with its finished children, and the open nodes, innermost first
* `Path.entries`: the nodes on and beside a path, with their places in the arena
* `Arena.Builds`: an arena that consists of the nodes of a path
* `Path.add`, `Path.enter`, `Path.leave`, `Path.wrap`, ...: what is done at the end of a path

## Main results

* `Arena.Builds.push`, `Arena.Builds.openNode`, `Arena.Builds.leave`, `Arena.Builds.wrap`, ...: the
  operations on arenas are those on paths
* `Arena.Builds.isWhole`: the tree at the end
-/

namespace PipeQuery

/-- An open node and its finished children. -/
structure Site where
  id : NodeId
  label : Label
  span : TokenSpan
  error : Option SyntaxError
  children : List Subtree

namespace Site

/-- The subtree of a node that has no open child. -/
def subtree (s : Site) : Subtree := .node s.id s.label s.span s.error s.children

/-- The node as it is closed before the token `stop`. -/
def close (s : Site) (stop : Nat) : Site :=
  { s with span := ⟨s.span.start, max stop s.span.start⟩ }

/-- A node that has just been opened at the token `start`. -/
def opened (id : NodeId) (label : Label) (start : Nat) : Site := ⟨id, label, ⟨start, start⟩, none, []⟩

/-- One more finished child. -/
def add (x : Subtree) (s : Site) : Site := { s with children := s.children ++ [x] }

/-- A new node at the place `id` with the node closed before the token `stop` as its only child. -/
def wrap (id : NodeId) (label : Label) (stop : Nat) (s : Site) : Site :=
  ⟨id, label, (s.close stop).span, none, [(s.close stop).subtree]⟩

/-- The node of the arena, with the slot of an open child if there is one. -/
def node (s : Site) (parent : Option NodeId) (below : List Slot) : Node :=
  ⟨s.label, parent, (s.children.map Subtree.slot ++ below).toArray, s.span, s.error⟩

end Site

/-- The open nodes, innermost first. -/
abbrev Path := List Site

namespace Path

/-- The innermost open node. -/
def top? (p : Path) : Option NodeId := p.head?.map Site.id

/-- The outermost node. -/
def root? : Path → Option NodeId
  | [] => none
  | s :: p => (root? p).or (some s.id)

/-- The nodes on and beside a path, where `below` is the slot of an open child. -/
def entriesFrom (below : List Slot) : Path → List (NodeId × Node)
  | [] => []
  | s :: p =>
    (s.id, s.node (top? p) below) ::
      (Subtree.entriesOf (some s.id) s.children ++ entriesFrom [.node s.id] p)

/-- The nodes on and beside a path. -/
def entries (p : Path) : List (NodeId × Node) := entriesFrom [] p

/-- The places of the nodes on and beside a path. -/
def ids : Path → List NodeId
  | [] => []
  | s :: p => s.id :: (Branch.preorderOf (Subtree.branches s.children) ++ ids p)

/-- One more finished child of the innermost node. -/
def add (x : Subtree) : Path → Path
  | [] => []
  | s :: p => { s with children := s.children ++ [x] } :: p

/-- Another label for the innermost node. -/
def relabel (label : Label) : Path → Path
  | [] => []
  | s :: p => { s with label := label } :: p

/-- An error for the innermost node, unless it has one. -/
def attach (e : SyntaxError) : Path → Path
  | [] => []
  | s :: p => (if s.error.isSome then s else { s with error := some e }) :: p

/-- A new innermost node, at the place `id`, before the token `start`. -/
def enter (id : NodeId) (label : Label) (start : Nat) (p : Path) : Path :=
  ⟨id, label, ⟨start, start⟩, none, []⟩ :: p

/-- The path without the innermost node, which is closed before the token `stop`. The root stays on
its path. -/
def leave (stop : Nat) : Path → Path
  | [] => []
  | [s] => [s.close stop]
  | s :: s' :: p => add (s.close stop).subtree (s' :: p)

/-- The innermost node closed before the token `stop`, as the only child of a new node at the place
`id`. -/
def wrap (id : NodeId) (label : Label) (stop : Nat) : Path → Path
  | [] => []
  | s :: p =>
    ⟨id, label, (s.close stop).span, none, [(s.close stop).subtree]⟩ :: p

theorem map_fst_entriesFrom (below : List Slot) (p : Path) :
    (entriesFrom below p).map Prod.fst = ids p := by
  induction p generalizing below with
  | nil => rfl
  | cons s p ih =>
    rw [entriesFrom, ids, List.map_cons, List.map_append, Subtree.map_fst_entriesOf, ih]

theorem top_ne {s : Site} {p : Path} (h : (ids (s :: p)).Nodup) {below : List Slot}
    {entry : NodeId × Node}
    (he : entry ∈ Subtree.entriesOf (some s.id) s.children ++ entriesFrom below p) :
    s.id ≠ entry.1 := by
  rintro heq
  refine (List.nodup_cons.mp h).1 ?_
  rw [heq, ← Subtree.map_fst_entriesOf (some s.id), ← map_fst_entriesFrom below,
    ← List.map_append]
  exact List.mem_map_of_mem he

end Path

namespace Arena

/-- An arena that consists of the nodes on and beside a path. -/
structure Builds (a : Arena) (p : Path) : Prop where
  nodes_eq : ∀ entry ∈ p.entries, a.nodes[entry.1]? = some entry.2
  perm : p.ids.Perm (List.range a.size)
  root_eq : a.root = p.root?

variable {a : Arena} {s s' : Site} {p : Path}

theorem builds_empty : empty.Builds [] :=
  ⟨fun _ h => (List.not_mem_nil h).elim, List.Perm.refl _, rfl⟩

theorem getElem?_modify (a : Arena) (i j : NodeId) (f : Node → Node) :
    (a.modify i f).nodes[j]? = if i = j then a.nodes[j]?.map f else a.nodes[j]? := by
  rw [modify, Array.getElem?_modify]

theorem Builds.nodup (h : a.Builds p) : p.ids.Nodup :=
  h.perm.nodup_iff.mpr List.nodup_range

theorem Builds.lt_size (h : a.Builds p) {id : NodeId} (hid : id ∈ p.ids) : id < a.size :=
  List.mem_range.mp (h.perm.mem_iff.mp hid)

/-- No node but the innermost has its place. -/
theorem Builds.ne_top (h : a.Builds (s :: p)) {entry : NodeId × Node}
    (he : entry ∈ Subtree.entriesOf (some s.id) s.children ++ Path.entriesFrom [.node s.id] p) :
    s.id ≠ entry.1 :=
  Path.top_ne h.nodup he

theorem Builds.node_top (h : a.Builds (s :: p)) :
    a.nodes[s.id]? = some (s.node (Path.top? p) []) :=
  h.nodes_eq _ List.mem_cons_self

/-- What changes the innermost node alone. -/
theorem Builds.modify_top (h : a.Builds (s :: p)) {f : Node → Node} (hid : s'.id = s.id)
    (hentries : Subtree.entriesOf (some s.id) s'.children =
      Subtree.entriesOf (some s.id) s.children)
    (hnode : s'.node (Path.top? p) [] = f (s.node (Path.top? p) [])) :
    (a.modify s.id f).Builds (s' :: p) := by
  refine ⟨?_, ?_, ?_⟩
  · rw [Path.entries, Path.entriesFrom, hid, hentries, List.forall_mem_cons]
    refine ⟨?_, fun entry he => ?_⟩
    · rw [getElem?_modify, if_pos rfl, h.node_top, hnode]
      rfl
    · rw [getElem?_modify, if_neg (h.ne_top he)]
      exact h.nodes_eq entry (List.mem_cons_of_mem _ he)
  · -- The nodes below are the same, so their identifiers are.
    have hids : Path.ids (s' :: p) = Path.ids (s :: p) := by
      rw [Path.ids, Path.ids, hid, ← Subtree.map_fst_entriesOf (some s.id), hentries,
        Subtree.map_fst_entriesOf]
    rw [hids, size_modify]
    exact h.perm
  · rw [Path.root?, hid]
    exact h.root_eq

/-- A token for the innermost node. -/
theorem Builds.push (h : a.Builds (s :: p)) {x : Subtree} (hx : ∀ parent, x.entries parent = []) :
    (a.push s.id x.slot).Builds (Path.add x (s :: p)) := by
  refine h.modify_top rfl ?_ ?_
  · rw [Subtree.entriesOf_append, Subtree.entriesOf, hx, Subtree.entriesOf, List.append_nil,
      List.append_nil]
  · simp [Site.node]

theorem Builds.relabel (h : a.Builds (s :: p)) (label : Label) :
    (a.relabel s.id label).Builds (Path.relabel label (s :: p)) :=
  h.modify_top rfl rfl rfl

theorem Builds.close (h : a.Builds (s :: p)) (stop : Nat) :
    (a.close s.id stop).Builds (s.close stop :: p) :=
  h.modify_top rfl rfl rfl

theorem Builds.attach (h : a.Builds (s :: p)) (e : SyntaxError) :
    (a.attach s.id e).Builds (Path.attach e (s :: p)) := by
  rw [Arena.attach, h.node_top, Path.attach]
  cases herror : s.error with
  | none =>
    have hb : (a.modify s.id fun n => { n with error := some e }).Builds
        ({ s with error := some e } :: p) := h.modify_top rfl rfl rfl
    simp only [Site.node, herror]
    exact ⟨hb.nodes_eq, hb.perm, hb.root_eq⟩
  | some e' =>
    simp only [Site.node, herror]
    exact h

/-- An error changes nothing else. -/
theorem Builds.exists_attach (h : a.Builds (s :: p)) (e : SyntaxError) :
    ∃ e', (a.attach s.id e).Builds ({ s with error := e' } :: p) := by
  have hattach := h.attach e
  rw [Path.attach] at hattach
  split at hattach
  · exact ⟨s.error, hattach⟩
  · exact ⟨some e, hattach⟩

/-- A node that is left is a finished child of the node above it. -/
theorem Path.entries_fold (s s' : Site) (p : Path) :
    (Path.entries (Path.add s.subtree (s' :: p))).Perm (Path.entries (s :: s' :: p)) := by
  simp only [Path.entries, Path.add, Path.entriesFrom, Path.top?, Site.subtree,
    Subtree.entriesOf_append, Subtree.entriesOf, Subtree.entries, Site.node, List.append_nil,
    List.append_assoc, List.map_append, List.map_cons, List.map_nil, Subtree.slot, List.head?_cons,
    Option.map_some]
  exact List.perm_append_comm_assoc (_ :: _) (_ :: _) _

theorem Builds.fold (h : a.Builds (s :: s' :: p)) : a.Builds (Path.add s.subtree (s' :: p)) := by
  have hentries := Path.entries_fold s s' p
  refine ⟨fun entry he => h.nodes_eq entry (hentries.mem_iff.mp he), ?_, ?_⟩
  rotate_left
  · rw [h.root_eq, Path.root?, Path.root?, Path.add, Path.root?]
    cases p.root? <;> rfl
  have hids := hentries.map Prod.fst
  rw [Path.entries, Path.entries, Path.map_fst_entriesFrom, Path.map_fst_entriesFrom] at hids
  exact hids.trans h.perm

theorem Builds.leave (h : a.Builds (s :: p)) (stop : Nat) :
    (a.close s.id stop).Builds (Path.leave stop (s :: p)) := by
  cases p with
  | nil => exact h.close stop
  | cons s' p => exact (h.close stop).fold

/-- The arena with one more node. -/
def pushNode (a : Arena) (n : Node) : Arena := { a with nodes := a.nodes.push n }

theorem getElem?_pushNode_size (a : Arena) (n : Node) :
    (a.pushNode n).nodes[a.size]? = some n := Array.getElem?_push_size

theorem getElem?_pushNode_of_lt {id : NodeId} (h : id < a.size) (n : Node) :
    (a.pushNode n).nodes[id]? = a.nodes[id]? := by
  have hne : id ≠ a.nodes.size := Nat.ne_of_lt h
  rw [pushNode, Array.getElem?_push, if_neg hne]

theorem perm_cons_size {ids : List NodeId} (h : ids.Perm (List.range a.size)) :
    (a.size :: ids).Perm (List.range (a.size + 1)) := by
  rw [List.range_succ]
  exact (h.cons a.size).trans (List.perm_append_singleton a.size _).symm

theorem Builds.entry_lt (h : a.Builds p) {entry : NodeId × Node} (he : entry ∈ p.entries) :
    entry.1 < a.size := by
  refine h.lt_size ?_
  rw [← Path.map_fst_entriesFrom []]
  exact List.mem_map_of_mem he

/-- A new node below the innermost one. -/
theorem Builds.openNode (h : a.Builds p) (label : Label) (start : Nat) :
    (a.openNode label p.top? start).Builds (Path.enter a.size label start p) := by
  have hperm : (Path.ids (Path.enter a.size label start p)).Perm
      (List.range (a.openNode label p.top? start).size) := by
    rw [size_openNode]
    exact perm_cons_size h.perm
  refine ⟨?_, hperm, ?_⟩
  · rw [Path.entries, Path.enter, Path.entriesFrom, List.forall_mem_cons]
    cases p with
    | nil =>
      refine ⟨getElem?_pushNode_size a _, fun entry he => ?_⟩
      cases he
    | cons s p =>
      -- The node that was innermost gets one more child, and all others stay as they are.
      have htop : s.id < a.size := h.lt_size List.mem_cons_self
      refine ⟨?_, ?_⟩
      · refine (getElem?_modify (a.pushNode _) s.id a.size _).trans ?_
        rw [if_neg (Nat.ne_of_lt htop)]
        exact getElem?_pushNode_size a _
      · rw [Subtree.entriesOf, List.nil_append, Path.entriesFrom, List.forall_mem_cons]
        refine ⟨?_, fun entry he => ?_⟩
        · refine (getElem?_modify (a.pushNode _) s.id s.id _).trans ?_
          rw [if_pos rfl]
          refine (congrArg _ (getElem?_pushNode_of_lt htop _)).trans ?_
          rw [h.node_top]
          simp [Site.node]
        · have hmem := List.mem_cons_of_mem (s.id, s.node (Path.top? p) []) he
          refine (getElem?_modify (a.pushNode _) s.id entry.1 _).trans ?_
          rw [if_neg (h.ne_top he)]
          exact (getElem?_pushNode_of_lt (h.entry_lt hmem) _).trans (h.nodes_eq entry hmem)
  · rw [Path.enter, Path.root?, ← h.root_eq]
    cases p with
    | nil => rfl
    | cons s p =>
      show a.root = a.root.or _
      rw [h.root_eq, Path.root?]
      cases Path.root? p <;> rfl

theorem mem_preorderOf_of_slot {id : NodeId} {xs : List Subtree}
    (h : Slot.node id ∈ xs.map Subtree.slot) :
    id ∈ Branch.preorderOf (Subtree.branches xs) := by
  induction xs with
  | nil => cases h
  | cons x xs ih =>
    rw [Subtree.branches, Branch.preorderOf, List.mem_append]
    rcases List.mem_cons.mp h with hx | h
    · refine .inl ?_
      cases x with
      | node =>
        cases hx
        rw [Subtree.branch, Branch.preorder]
        exact List.mem_cons_self
      | token | discarded => cases hx
    · exact .inr (ih h)

/-- Only the slot of the open child changes when that child is replaced. -/
theorem map_replaceSlot {prev : NodeId} {xs : List Subtree}
    (h : prev ∉ Branch.preorderOf (Subtree.branches xs)) (id : NodeId) :
    (xs.map Subtree.slot ++ [Slot.node prev]).map (replaceSlot prev id) =
      xs.map Subtree.slot ++ [Slot.node id] := by
  have hsame : ∀ slot ∈ xs.map Subtree.slot, replaceSlot prev id slot = slot := by
    intro slot hslot
    refine if_neg fun heq => h (mem_preorderOf_of_slot ?_)
    rwa [← heq]
  rw [List.map_append, List.map_congr_left hsame, List.map_id']
  simp [replaceSlot]

/-- The slot of an open child shows in the node above it alone. -/
theorem relink {b : Arena} {child parent : NodeId} (hchild : child ∉ p.ids) (hnodup : p.ids.Nodup)
    (h : ∀ entry ∈ p.entriesFrom [.node child], b.nodes[entry.1]? = some entry.2)
    (hp : p.top? = some parent) (id : NodeId) :
    ∀ entry ∈ p.entriesFrom [.node id],
      (b.modify parent fun n =>
        { n with children := n.children.map (replaceSlot child id) }).nodes[entry.1]? =
          some entry.2 := by
  cases p with
  | nil => cases hp
  | cons s p =>
    obtain rfl : s.id = parent := Option.some.inj hp
    rw [Path.entriesFrom, List.forall_mem_cons] at h ⊢
    refine ⟨?_, fun entry he => ?_⟩
    · -- The child is in none of the subtrees below the node, so only its own slot changes.
      have hbelow : child ∉ Branch.preorderOf (Subtree.branches s.children) :=
        fun hmem => hchild (List.mem_cons_of_mem _ (List.mem_append_left _ hmem))
      have hslots := map_replaceSlot hbelow id
      rw [getElem?_modify, if_pos rfl, h.1]
      simp only [Option.map_some, Site.node, List.map_toArray]
      rw [hslots]
    · rw [getElem?_modify, if_neg (Path.top_ne hnodup he)]
      exact h.2 entry he

/-- Before the old node gets the new one as its parent, the new one stands behind all others, in the
place of the old one below the node above. -/
theorem Builds.exists_pushed (h : a.Builds (s :: p)) (label : Label) (stop : Nat) :
    ∃ b : Arena,
      a.wrap s.id label stop = b.modify s.id (fun n => { n with parent := some a.size }) ∧
      b.root = (Path.root? p).or (some a.size) ∧
      b.nodes[a.size]? = some ⟨label, Path.top? p, #[.node s.id], (s.close stop).span, none⟩ ∧
      b.nodes[s.id]? = some ((s.close stop).node (Path.top? p) []) ∧
      (∀ entry ∈ Subtree.entriesOf (some s.id) s.children, b.nodes[entry.1]? = some entry.2) ∧
      ∀ entry ∈ Path.entriesFrom [.node a.size] p, b.nodes[entry.1]? = some entry.2 := by
  have hc := h.close stop
  obtain ⟨hs, hids⟩ := List.nodup_cons.mp hc.nodup
  obtain ⟨-, hp, hdisjoint⟩ := List.nodup_append.mp hids
  have hsize : (a.close s.id stop).size = a.size := size_close ..
  let new : Node := ⟨label, Path.top? p, #[.node s.id], (s.close stop).span, none⟩
  let b := (a.close s.id stop).pushNode new
  have hnew : b.nodes[a.size]? = some new := by
    rw [← hsize]
    exact getElem?_pushNode_size _ new
  have hold : ∀ entry ∈ Path.entries (s.close stop :: p), b.nodes[entry.1]? = some entry.2 :=
    fun entry he => (getElem?_pushNode_of_lt (hc.entry_lt he) new).trans (hc.nodes_eq entry he)
  rw [Path.entries, Path.entriesFrom, List.forall_mem_cons, List.forall_mem_append] at hold
  obtain ⟨hnode, hchildren, habove⟩ := hold
  have hprev : (a.close s.id stop).nodes[s.id]? =
      some ((s.close stop).node (Path.top? p) []) := hc.node_top
  cases p with
  | nil =>
    refine ⟨{ b with root := some a.size }, ?_, rfl, hnew, hnode, hchildren,
      fun _ he => (List.not_mem_nil he).elim⟩
    rw [Arena.wrap, hprev, hsize]
    rfl
  | cons s' p =>
    -- Only the node above changes, which is neither of the two, nor below the old one.
    have hmem : s'.id ∈ Path.ids (s' :: p) := List.mem_cons_self
    have hne : s'.id ≠ s.id := fun heq => hs (heq ▸ List.mem_append_right _ hmem)
    refine ⟨b.modify s'.id fun n =>
      { n with children := n.children.map (replaceSlot s.id a.size) }, ?_, ?_, ?_, ?_,
      fun entry he => ?_, ?_⟩
    · rw [Arena.wrap, hprev, hsize]
      rfl
    · show a.root = _
      rw [h.root_eq, Path.root?, Path.root?]
      cases Path.root? p <;> rfl
    · have hparent : s'.id < a.size :=
        hsize ▸ hc.lt_size (List.mem_cons_of_mem _ (List.mem_append_right _ hmem))
      rw [getElem?_modify, if_neg (Nat.ne_of_lt hparent), hnew]
    · rw [getElem?_modify, if_neg hne]
      exact hnode
    · have hentry : entry.1 ∈ Branch.preorderOf (Subtree.branches s.children) := by
        rw [← Subtree.map_fst_entriesOf (some s.id)]
        exact List.mem_map_of_mem he
      rw [getElem?_modify, if_neg (hdisjoint _ hentry _ hmem).symm]
      exact hchildren entry he
    · exact relink (fun hmem => hs (List.mem_append_right _ hmem)) hp habove rfl a.size

theorem Builds.wrap (h : a.Builds (s :: p)) (label : Label) (stop : Nat) :
    (a.wrap s.id label stop).Builds (Path.wrap a.size label stop (s :: p)) := by
  have hc := h.close stop
  have htop : s.id < a.size := h.lt_size List.mem_cons_self
  obtain ⟨b, hwrap, hroot, hnew, hnode, hchildren, habove⟩ := h.exists_pushed label stop
  constructor
  case nodes_eq =>
    rw [hwrap, Path.wrap, Path.entries, Path.entriesFrom, List.forall_mem_cons,
      List.forall_mem_append]
    refine ⟨?_, ?_, fun entry he => ?_⟩
    · rw [getElem?_modify, if_neg (Nat.ne_of_lt htop), hnew]
      rfl
    · rw [Subtree.entriesOf, Subtree.entriesOf, List.append_nil, Site.subtree, Subtree.entries,
        List.forall_mem_cons]
      refine ⟨?_, fun entry he => ?_⟩
      · have hlink : (b.modify s.id fun n => { n with parent := some a.size }).nodes[s.id]? =
            some { (s.close stop).node (Path.top? p) [] with parent := some a.size } := by
          rw [getElem?_modify, if_pos rfl, hnode]
          rfl
        refine hlink.trans ?_
        simp [Site.node, Site.close]
      · have hne : s.id ≠ entry.1 :=
          Path.top_ne hc.nodup (List.mem_append_left (Path.entriesFrom [] p) he)
        refine (getElem?_modify ..).trans ?_
        rw [if_neg hne]
        exact hchildren entry he
    · have hne : s.id ≠ entry.1 := Path.top_ne hc.nodup
        (List.mem_append_right (Subtree.entriesOf (some s.id) s.children) he)
      refine (getElem?_modify ..).trans ?_
      rw [if_neg hne]
      exact habove entry he
  case perm =>
    rw [size_wrap]
    refine (List.Perm.cons _ ?_).trans (perm_cons_size h.perm)
    rw [Subtree.branches, Subtree.branches, Branch.preorderOf, Branch.preorderOf, Site.subtree,
      Subtree.branch, Branch.preorder]
    simp [Path.ids, Site.close]
  case root_eq =>
    rw [hwrap]
    exact hroot

/-- **The tree of an arena with a single open node** consists of the nodes of its subtree. -/
theorem Builds.isWhole {tokens : Array Token} {t : ParseTree} (h : a.Builds [s])
    (ht : a.finish tokens = some t) : t.IsWhole s.subtree ∧ t.tokens = tokens := by
  have hroot : a.root = some s.id := h.root_eq
  rw [finish, hroot] at ht
  cases ht
  refine ⟨⟨rfl, fun entry he => h.nodes_eq entry ?_, ?_⟩, rfl⟩
  · rw [Site.subtree, Subtree.entries] at he
    rw [Path.entries, Path.entriesFrom, Path.entriesFrom, List.append_nil, Site.node,
      List.append_nil]
    exact he
  · have hperm := h.perm
    rw [Path.ids, Path.ids, List.append_nil] at hperm
    rw [Site.subtree, Subtree.branch, Branch.preorder]
    exact hperm

end Arena

end PipeQuery

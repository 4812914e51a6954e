import PipeQuery.Proofs.Tree.Path

/-!
# The tokens dropped in an arena

A token that was dropped is a child of the node that it was dropped into, and stays there whatever
is done to the arena. Only one operation drops a token, that which puts it behind the children of a
node.

## Main definitions

* `Arena.discardsAt`, `Arena.Discards`: the tokens dropped into a node, and into any node
* `Arena.SameDiscards`: arenas whose nodes dropped the same tokens
* `ParseTree.Discards`: a token that was dropped, in a tree

## Main results

* `Arena.sameDiscards_openNode`, `Arena.sameDiscards_wrap`, `Arena.sameDiscards_attach`, ...: the
  operations that drop no token
* `Arena.discardsAt_push`: what becomes of the tokens dropped when one more is
* `ParseTree.isValid_iff`: a valid tree has no error and dropped no token
-/

namespace PipeQuery

/-- The place of a token that was dropped. -/
def Slot.discarded? : Slot → Option Nat
  | discarded j => some j
  | node _ | token _ => none

/-- The places of the tokens dropped into a node. -/
def Node.discards (n : Node) : List Nat := n.children.toList.filterMap Slot.discarded?

theorem Node.mem_discards {n : Node} {j : Nat} :
    j ∈ n.discards ↔ Slot.discarded j ∈ n.children.toList := by
  rw [discards, List.mem_filterMap]
  constructor
  · rintro ⟨slot, hslot, hj⟩
    cases slot with
    | discarded j' =>
      cases hj
      exact hslot
    | node | token => cases hj
  · exact fun h => ⟨_, h, rfl⟩

namespace Arena

variable {a b c : Arena} {id i : NodeId} {j : Nat}

/-- The places of the tokens dropped into the node at `id`. -/
def discardsAt (a : Arena) (id : NodeId) : List Nat := (a.nodes[id]?.map Node.discards).getD []

/-- The token at the place `j` was dropped. -/
def Discards (a : Arena) (j : Nat) : Prop := ∃ id, j ∈ a.discardsAt id

/-- The same tokens were dropped into the nodes. -/
structure SameDiscards (a b : Arena) : Prop where
  discardsAt_eq : ∀ i, b.discardsAt i = a.discardsAt i

theorem SameDiscards.refl (a : Arena) : SameDiscards a a := ⟨fun _ => rfl⟩

theorem SameDiscards.trans (h : SameDiscards a b) (h' : SameDiscards b c) : SameDiscards a c :=
  ⟨fun i => (h'.discardsAt_eq i).trans (h.discardsAt_eq i)⟩

theorem SameDiscards.discards_iff (h : SameDiscards a b) : b.Discards j ↔ a.Discards j :=
  exists_congr fun i => by rw [h.discardsAt_eq i]

theorem discardsAt_modify (a : Arena) (id i : NodeId) (f : Node → Node) :
    (a.modify id f).discardsAt i =
      if id = i then (a.nodes[i]?.map fun n => (f n).discards).getD [] else a.discardsAt i := by
  rw [discardsAt, getElem?_modify]
  split
  · rw [Option.map_map]
    rfl
  · rfl

/-! ## What drops no token -/

theorem sameDiscards_modify (a : Arena) (id : NodeId) {f : Node → Node}
    (hf : ∀ n, (f n).discards = n.discards) : SameDiscards a (a.modify id f) := by
  refine ⟨fun i => ?_⟩
  rw [discardsAt_modify]
  split
  · simp only [hf]
    rfl
  · rfl

theorem sameDiscards_pushNode (a : Arena) {n : Node} (hn : n.discards = []) :
    SameDiscards a (a.pushNode n) := by
  refine ⟨fun i => ?_⟩
  rw [discardsAt, pushNode, Array.getElem?_push, discardsAt]
  split
  · rename_i hi
    rw [hi, Array.getElem?_eq_none (Nat.le_refl _)]
    exact hn
  · rfl

/-- Other slots than those of dropped tokens. -/
theorem sameDiscards_push (a : Arena) (id : NodeId) {slot : Slot} (h : slot.discarded? = none) :
    SameDiscards a (a.push id slot) := by
  refine sameDiscards_modify a id fun n => ?_
  rw [Node.discards, Array.toList_push, List.filterMap_append, List.filterMap_cons_none h,
    List.filterMap_nil, List.append_nil, Node.discards]

theorem sameDiscards_close (a : Arena) (id : NodeId) (stop : Nat) :
    SameDiscards a (a.close id stop) :=
  sameDiscards_modify a id fun _ => rfl

theorem sameDiscards_relabel (a : Arena) (id : NodeId) (label : Label) :
    SameDiscards a (a.relabel id label) :=
  sameDiscards_modify a id fun _ => rfl

theorem sameDiscards_openNode (a : Arena) (label : Label) (parent : Option NodeId) (start : Nat) :
    SameDiscards a (a.openNode label parent start) := by
  have hpush := sameDiscards_pushNode a (n := ⟨label, parent, #[], ⟨start, start⟩, none⟩) rfl
  cases parent with
  | none => exact ⟨hpush.discardsAt_eq⟩
  | some id => exact hpush.trans (sameDiscards_push _ id rfl)

/-- No token that was dropped takes the place of a node. -/
theorem discarded?_replaceSlot (prev id : NodeId) (slot : Slot) :
    (replaceSlot prev id slot).discarded? = slot.discarded? := by
  rw [replaceSlot]
  split
  · rename_i h
    rw [h]
    rfl
  · rfl

theorem sameDiscards_wrap (a : Arena) (prev : NodeId) (label : Label) (stop : Nat) :
    SameDiscards a (a.wrap prev label stop) := by
  let old : Node := (a.close prev stop).nodes[prev]?.getD default
  have hnew : SameDiscards a
      ((a.close prev stop).pushNode ⟨label, old.parent, #[.node prev], old.span, none⟩) :=
    (sameDiscards_close a prev stop).trans (sameDiscards_pushNode _ rfl)
  unfold wrap
  refine SameDiscards.trans ?_ (sameDiscards_modify _ prev fun _ => rfl)
  split
  · refine hnew.trans (sameDiscards_modify _ _ fun n => ?_)
    rw [Node.discards, Array.toList_map, List.filterMap_map, Node.discards]
    exact congrArg (fun g => n.children.toList.filterMap g)
      (funext fun slot => discarded?_replaceSlot prev _ slot)
  · exact ⟨hnew.discardsAt_eq⟩

theorem sameDiscards_attach (a : Arena) (id : NodeId) (e : SyntaxError) :
    SameDiscards a (a.attach id e) := by
  rw [attach]
  split
  · have hmodify := sameDiscards_modify a id (f := fun n => { n with error := some e })
      fun _ => rfl
    exact ⟨hmodify.discardsAt_eq⟩
  · exact .refl _

/-! ## Dropping a token -/

/-- **A token that is dropped** into a node stands behind those dropped before. -/
theorem discardsAt_push (hid : id < a.size) (j : Nat) (i : NodeId) :
    (a.push id (.discarded j)).discardsAt i =
      if id = i then a.discardsAt i ++ [j] else a.discardsAt i := by
  rw [push, discardsAt_modify]
  split
  · rename_i hi
    subst hi
    have hnode : a.nodes[id]? = some a.nodes[id] := Array.getElem?_eq_getElem hid
    rw [discardsAt, hnode]
    simp [Node.discards, Slot.discarded?]
  · rfl

theorem discards_push_iff (hid : id < a.size) {k : Nat} :
    (a.push id (.discarded j)).Discards k ↔ a.Discards k ∨ k = j := by
  constructor
  · rintro ⟨i, hi⟩
    rw [discardsAt_push hid] at hi
    split at hi
    · rw [List.mem_append, List.mem_singleton] at hi
      exact hi.imp_left fun h => ⟨i, h⟩
    · exact .inl ⟨i, hi⟩
  · rintro (⟨i, hi⟩ | rfl)
    · refine ⟨i, ?_⟩
      rw [discardsAt_push hid]
      split
      · exact List.mem_append_left _ hi
      · exact hi
    · refine ⟨id, ?_⟩
      rw [discardsAt_push hid, if_pos rfl]
      exact List.mem_append_right _ List.mem_cons_self

end Arena

namespace ParseTree

variable {t : ParseTree} {x : Subtree} {id : NodeId}

/-- The token at the place `j` is a leaf of the tree that was dropped. -/
def Discards (t : ParseTree) (j : Nat) : Prop :=
  ∃ id ∈ t.preorder t.root, Slot.discarded j ∈ t.children id

instance (t : ParseTree) (j : Nat) : Decidable (t.Discards j) :=
  inferInstanceAs (Decidable (∃ id ∈ t.preorder t.root, Slot.discarded j ∈ t.children id))

theorem isFaulty_eq_false : t.isFaulty id = false ↔
    (t.node id).error = none ∧ ∀ j, Slot.discarded j ∉ t.children id := by
  rw [isFaulty, Bool.or_eq_false_iff, Option.isSome_eq_false_iff, Option.isNone_iff_eq_none,
    List.any_eq_false]
  refine and_congr_right fun _ => ⟨fun h j hj => h _ hj rfl, fun h slot hslot => ?_⟩
  cases slot with
  | discarded j => exact absurd hslot (h j)
  | node | token => exact Bool.false_ne_true

/-- **A valid tree has no error and dropped no token.** -/
theorem isValid_iff : t.isValid = true ↔
    (∀ id ∈ t.preorder t.root, (t.node id).error = none) ∧ ∀ j, ¬ t.Discards j := by
  rw [isValid, hasErrors, Bool.not_eq_true', List.any_eq_false]
  simp only [Bool.not_eq_true, isFaulty_eq_false]
  constructor
  · intro h
    refine ⟨fun id hid => (h id hid).1, fun j hdropped => ?_⟩
    obtain ⟨id, hid, hj⟩ := hdropped
    exact (h id hid).2 j hj
  · exact fun h id hid => ⟨h.1 id hid, fun j hj => h.2 j ⟨id, hid, hj⟩⟩

end ParseTree

end PipeQuery

import Mathlib.Logic.Relation
import PipeQuery.Proofs.Tree.Whole

/-!
# Nodes and their parents

A tree refers to its nodes by their places in an array, in both directions: a node has the slots of
its children, and the place of its parent. In a tree that consists of the nodes of one subtree the
two agree, all nodes hang below the root, and every place that a slot names exists.

## Main definitions

* `ParseTree.IsChild`: a node has the slot of another
* `Slot.InRange`: the place that a slot names exists
* `ParseTree.IsTree`: an array of nodes that is one tree

## Main results

* `ParseTree.IsWhole.isTree`: what consists of the nodes of one subtree is one tree
-/

namespace PipeQuery

/-! ## Slots of subtrees -/

namespace Subtree

variable {x : Subtree} {cs : List Subtree} {id c : NodeId}

/-- A slot of a node is that of a subtree whose topmost node has this place. -/
theorem exists_of_slot_eq_node (h : x.slot = .node id) :
    ∃ l span e cs, x = Subtree.node id l span e cs := by
  cases x with
  | node id' l span e cs =>
    obtain rfl := Slot.node.inj h
    exact ⟨l, span, e, cs, rfl⟩
  | token | discarded => cases h

/-- A node has no more slots than places in preorder. -/
theorem count_slot_le (id : NodeId) (cs : List Subtree) :
    (cs.map slot).count (.node id) ≤ (Branch.preorderOf (branches cs)).count id := by
  induction cs with
  | nil => exact Nat.le_refl 0
  | cons x xs ih =>
    rw [List.map_cons, branches, Branch.preorderOf, List.count_append, List.count_cons]
    cases x with
    | node id' l span e children =>
      rw [branch, Branch.preorder, List.count_cons]
      by_cases hid : id' = id
      · simp only [hid, slot, beq_self_eq_true, if_true]
        omega
      · simp only [hid, slot, Slot.node.injEq, beq_iff_eq, if_false]
        omega
    | token | discarded => simpa [slot] using Nat.le_add_left_of_le ih

/-- The token of a slot is one of the leaves. -/
theorem mem_leafIndicesOf {i : Nat}
    (h : Slot.token i ∈ cs.map slot ∨ Slot.discarded i ∈ cs.map slot) :
    i ∈ Branch.leafIndicesOf (branches cs) := by
  rw [List.mem_map, List.mem_map] at h
  obtain ⟨y, hy, hleaf⟩ : ∃ y ∈ cs, i ∈ y.branch.leafIndices := by
    rcases h with ⟨y, hy, hslot⟩ | ⟨y, hy, hslot⟩ <;> cases y <;> cases hslot <;>
      exact ⟨_, hy, by simp [branch, Branch.leafIndices]⟩
  obtain ⟨before, behind, rfl⟩ := List.append_of_mem hy
  rw [leafIndicesOf_append, branches, Branch.leafIndicesOf]
  exact List.mem_append_right _ (List.mem_append_left _ hleaf)

mutual

/-- The parent of a node is the one that has its slot. -/
theorem parent_of_entries {parent : Option NodeId} {q : NodeId} {n : Node} :
    ∀ x : Subtree, (q, n) ∈ x.entries parent → Slot.node c ∈ n.children.toList →
      ∃ m : Node, (c, m) ∈ x.entries parent ∧ m.parent = some q
  | .node id _ _ _ children, h, hc => by
    rw [Subtree.entries, List.mem_cons] at h
    rcases h with heq | h
    · cases heq
      obtain ⟨y, hy, hslot⟩ := List.mem_map.mp hc
      obtain ⟨l, span, e, cs, rfl⟩ := exists_of_slot_eq_node hslot
      refine ⟨⟨l, some q, (cs.map slot).toArray, span, e⟩, ?_, rfl⟩
      exact List.mem_cons_of_mem _ (entries_subset_of_mem hy List.mem_cons_self)
    · obtain ⟨m, hm, hparent⟩ := parent_of_entriesOf children h hc
      exact ⟨m, List.mem_cons_of_mem _ hm, hparent⟩
  | .token _, h, _ | .discarded _, h, _ => by simp [Subtree.entries] at h

theorem parent_of_entriesOf {parent : Option NodeId} {q : NodeId} {n : Node} :
    ∀ xs : List Subtree, (q, n) ∈ entriesOf parent xs → Slot.node c ∈ n.children.toList →
      ∃ m : Node, (c, m) ∈ entriesOf parent xs ∧ m.parent = some q
  | [], h, _ => by simp [entriesOf] at h
  | x :: xs, h, hc => by
    rw [entriesOf, List.mem_append] at h
    rcases h with h | h
    · obtain ⟨m, hm, hparent⟩ := parent_of_entries x h hc
      exact ⟨m, List.mem_append_left _ hm, hparent⟩
    · obtain ⟨m, hm, hparent⟩ := parent_of_entriesOf xs h hc
      exact ⟨m, List.mem_append_right _ hm, hparent⟩

end

end Subtree

/-! ## Whole trees -/

/-- The node or the token of a slot exists. -/
def Slot.InRange (t : ParseTree) : Slot → Prop
  | .node id => id < t.size
  | .token i | .discarded i => i < t.tokens.size

namespace ParseTree

open Subtree

/-- The node `id` has a slot among the children of `parent`. -/
def IsChild (t : ParseTree) (parent id : NodeId) : Prop := Slot.node id ∈ t.children parent

/-- The nodes of the array are one tree: each hangs below the root, and has one slot at one node,
which is its parent. No place that the tree names is outside its arrays. -/
structure IsTree (t : ParseTree) : Prop where
  root_lt : t.root < t.size
  reachable : ∀ id < t.size, Relation.ReflTransGen t.IsChild t.root id
  root_parent : (t.node t.root).parent = none
  root_slot : ∀ p, ¬ t.IsChild p t.root
  parent : ∀ id < t.size, id ≠ t.root → ∃ p < t.size, (t.node id).parent = some p ∧
    (t.children p).count (.node id) = 1 ∧ ∀ q, t.IsChild q id → q = p
  preorder : (t.preorder t.root).Perm (List.range t.size)
  slots : ∀ p, ∀ slot ∈ t.children p, slot.InRange t
  reported : ∀ id ∈ t.reported, id < t.size

variable {t : ParseTree} {x : Subtree} {id c p : NodeId}

mutual

/-- The nodes of a subtree are reached from its topmost node. -/
theorem reachable_of_entries {parent : Option NodeId} :
    ∀ x : Subtree, (∀ entry ∈ x.entries parent, t.nodes[entry.1]? = some entry.2) →
      c ∈ x.branch.preorder → ∃ r, x.slot = .node r ∧ Relation.ReflTransGen t.IsChild r c
  | .node id _ _ _ children, h, hc => by
    refine ⟨id, rfl, ?_⟩
    rw [Subtree.branch, Branch.preorder, List.mem_cons] at hc
    rcases hc with rfl | hc
    · exact .refl
    · obtain ⟨y, hy, r, hr, hreach⟩ :=
        reachable_of_entriesOf children (fun e he => h e (List.mem_cons_of_mem _ he)) hc
      refine .head ?_ hreach
      obtain ⟨_, hnode⟩ := Holds.node_eq ⟨parent, h⟩
      rw [IsChild, ParseTree.children, hnode, ← hr]
      exact List.mem_map_of_mem hy
  | .token _, _, hc | .discarded _, _, hc => by simp [Subtree.branch, Branch.preorder] at hc

theorem reachable_of_entriesOf {parent : Option NodeId} :
    ∀ xs : List Subtree, (∀ entry ∈ entriesOf parent xs, t.nodes[entry.1]? = some entry.2) →
      c ∈ Branch.preorderOf (branches xs) →
        ∃ y ∈ xs, ∃ r, y.slot = .node r ∧ Relation.ReflTransGen t.IsChild r c
  | [], _, hc => by simp [branches, Branch.preorderOf] at hc
  | x :: xs, h, hc => by
    rw [branches, Branch.preorderOf, List.mem_append] at hc
    rcases hc with hc | hc
    · have hx := reachable_of_entries x (fun e he => h e (List.mem_append_left _ he)) hc
      exact ⟨x, List.mem_cons_self, hx⟩
    · obtain ⟨y, hy, hreach⟩ :=
        reachable_of_entriesOf xs (fun e he => h e (List.mem_append_right _ he)) hc
      exact ⟨y, List.mem_cons_of_mem _ hy, hreach⟩

end

theorem IsWhole.root_lt (h : t.IsWhole x) : t.root < t.size := by
  obtain ⟨l, span, e, children, rfl⟩ := h.exists_root
  exact List.mem_range.mp (h.perm.mem_iff.mp List.mem_cons_self)

/-- A node of the tree is an entry of its subtree. -/
theorem IsWhole.node_mem (h : t.IsWhole x) (hid : id < t.size) :
    (id, t.node id) ∈ x.entries none := by
  have hmem : id ∈ (x.entries none).map Prod.fst := by
    rw [map_fst_entries]
    exact h.perm.mem_iff.mpr (List.mem_range.mpr hid)
  obtain ⟨⟨id', n⟩, hentry, rfl⟩ := List.mem_map.mp hmem
  have hnode : t.node id' = n := by rw [ParseTree.node, h.nodes_eq _ hentry, Option.getD_some]
  rw [hnode]
  exact hentry

/-- Only a node of the tree has children. -/
theorem lt_of_slot {slot : Slot} (h : slot ∈ t.children p) : p < t.size := by
  apply Nat.lt_of_not_le
  intro hle
  rw [ParseTree.children, ParseTree.node, Array.getElem?_eq_none hle] at h
  exact List.not_mem_nil h

/-- The node that has the slot of a child is its parent. -/
theorem IsWhole.parent_eq (h : t.IsWhole x) (hc : t.IsChild p c) :
    c < t.size ∧ (t.node c).parent = some p := by
  obtain ⟨m, hm, hparent⟩ := parent_of_entries x (h.node_mem (lt_of_slot hc)) hc
  have hnode := h.nodes_eq _ hm
  refine ⟨(Array.getElem?_eq_some_iff.mp hnode).1, ?_⟩
  rw [ParseTree.node, hnode, Option.getD_some, hparent]

theorem IsWhole.root_parent (h : t.IsWhole x) : (t.node t.root).parent = none := by
  obtain ⟨l, span, e, children, rfl⟩ := h.exists_root
  have hnode := h.nodes_eq _ List.mem_cons_self
  rw [ParseTree.node, hnode, Option.getD_some]

/-- The slots of a node are those of the children of its subtree. -/
theorem IsWhole.exists_children (h : t.IsWhole x) (hp : p < t.size) :
    ∃ cs, t.children p = cs.map slot ∧
      (Branch.preorderOf (branches cs)).Sublist x.branch.preorder ∧
        (Branch.leafIndicesOf (branches cs)).Sublist x.branch.leafIndices := by
  obtain ⟨l, span, e, cs, hmem⟩ := h.exists_mem_nodes hp
  obtain ⟨_, hnode⟩ := (h.holds.of_mem_nodes hmem).node_eq
  obtain ⟨hpre, hleaf⟩ := sublist_of_mem_nodes x hmem
  rw [Subtree.branch, Branch.preorder] at hpre
  rw [Subtree.branch, Branch.leafIndices] at hleaf
  refine ⟨cs, ?_, (List.sublist_cons_self _ _).trans hpre, hleaf⟩
  rw [ParseTree.children, hnode]

/-- No node has two slots for one child. -/
theorem IsWhole.count_eq_one (h : t.IsWhole x) (hc : t.IsChild p c) :
    (t.children p).count (.node c) = 1 := by
  obtain ⟨cs, hchildren, hpre, -⟩ := h.exists_children (lt_of_slot hc)
  have hnodup : x.branch.preorder.Nodup := h.perm.nodup_iff.mpr List.nodup_range
  apply Nat.le_antisymm
  · calc (t.children p).count (.node c)
        ≤ (Branch.preorderOf (branches cs)).count c := hchildren ▸ count_slot_le c cs
      _ ≤ x.branch.preorder.count c := hpre.count_le c
      _ ≤ 1 := List.nodup_iff_count.mp hnodup c
  · exact List.one_le_count_iff.mpr hc

/-- **What consists of the nodes of one subtree is one tree**, if its leaves are tokens of the tree
and its errors are those of its nodes. -/
theorem IsWhole.isTree (h : t.IsWhole x) (hleaf : ∀ i ∈ x.branch.leafIndices, i < t.tokens.size)
    (hreported : ∀ id ∈ t.reported, id < t.size) : t.IsTree := by
  -- All nodes are reached from the root, since they are the nodes of one subtree.
  have hreach : ∀ id < t.size, Relation.ReflTransGen t.IsChild t.root id := by
    intro id hid
    obtain ⟨r, hr, hreach⟩ :=
      reachable_of_entries x h.nodes_eq (h.perm.mem_iff.mpr (List.mem_range.mpr hid))
    obtain rfl := Slot.node.inj (hr.symm.trans h.slot_eq)
    exact hreach
  constructor
  case root_lt => exact h.root_lt
  case reachable => exact hreach
  case root_parent => exact h.root_parent
  case root_slot =>
    intro p hp
    have hparent := (h.parent_eq hp).2
    rw [h.root_parent] at hparent
    cases hparent
  case parent =>
    intro id hid hne
    rcases (hreach id hid).cases_tail with rfl | ⟨p, -, hp⟩
    · exact absurd rfl hne
    · obtain ⟨-, hparent⟩ := h.parent_eq hp
      refine ⟨p, lt_of_slot hp, hparent, h.count_eq_one hp, fun q hq => ?_⟩
      have hq := (h.parent_eq hq).2
      rw [hparent] at hq
      exact (Option.some.inj hq).symm
  case preorder => exact h.preorder_perm
  case slots =>
    intro p slot hslot
    obtain ⟨cs, hchildren, -, hbelow⟩ := h.exists_children (lt_of_slot hslot)
    cases slot with
    | node c => exact (h.parent_eq hslot).1
    | token i =>
      rw [hchildren] at hslot
      exact hleaf i (hbelow.subset (mem_leafIndicesOf (.inl hslot)))
    | discarded i =>
      rw [hchildren] at hslot
      exact hleaf i (hbelow.subset (mem_leafIndicesOf (.inr hslot)))
  case reported => exact hreported

end ParseTree

end PipeQuery

import PipeQuery.Proofs.Tree.Subtree

/-!
# Trees of one subtree

A parse tree that holds the nodes of a subtree, and no others, is described by it fully: what a walk
through the tree finds can be read off the subtree.

## Main definitions

* `ParseTree.Holds`: the nodes of a subtree stand in a tree at their places
* `ParseTree.IsWhole`: a tree that consists of the nodes of one subtree

## Main results

* `ParseTree.IsWhole.preorder_perm`: the nodes of such a tree are those below its root, each once
* `ParseTree.IsWhole.exists_mem_nodes`: each of them has its subtree
* `ParseTree.IsWhole.isValid_iff`: the tree is valid if the subtree is intact
* `ParseTree.IsWhole.shape_eq`, `ParseTree.IsWhole.leafIndices_eq`: the shape and the leaves of a node
-/

namespace PipeQuery

open Token (Kind)

namespace ParseTree

open Subtree

variable {t : ParseTree} {x y : Subtree} {id : NodeId} {l : Label} {span : TokenSpan}
  {e : Option SyntaxError} {children : List Subtree}

/-- The nodes of a subtree stand in the tree at their places. -/
def Holds (t : ParseTree) (x : Subtree) : Prop :=
  ∃ parent, ∀ entry ∈ x.entries parent, t.nodes[entry.1]? = some entry.2

/-- A tree that consists of the nodes of one subtree. -/
structure IsWhole (t : ParseTree) (x : Subtree) : Prop where
  slot_eq : x.slot = .node t.root
  nodes_eq : ∀ entry ∈ x.entries none, t.nodes[entry.1]? = some entry.2
  perm : x.branch.preorder.Perm (List.range t.size)

theorem Holds.of_mem_nodes (h : t.Holds x) (hy : y ∈ x.nodes) : t.Holds y := by
  obtain ⟨parent, h⟩ := h
  obtain ⟨p, hp⟩ := entries_subset parent x hy
  exact ⟨p, fun entry he => h entry (hp he)⟩

theorem Holds.of_mem_children (h : t.Holds (.node id l span e children)) (hy : y ∈ children) :
    t.Holds y := by
  obtain ⟨parent, h⟩ := h
  refine ⟨some id, fun entry he => h entry ?_⟩
  rw [Subtree.entries]
  exact List.mem_cons_of_mem _ (entries_subset_of_mem hy he)

theorem IsWhole.holds (h : t.IsWhole x) : t.Holds x := ⟨none, h.nodes_eq⟩

theorem Holds.node_eq (h : t.Holds (.node id l span e children)) :
    ∃ parent, t.node id = ⟨l, parent, (children.map slot).toArray, span, e⟩ := by
  obtain ⟨parent, h⟩ := h
  have hnode := h _ List.mem_cons_self
  exact ⟨parent, by rw [ParseTree.node, hnode]; rfl⟩

mutual

theorem contains_of_entries {parent : Option NodeId} : ∀ x : Subtree,
    (∀ entry ∈ x.entries parent, t.nodes[entry.1]? = some entry.2) → t.Contains x.branch
  | .node id _ _ _ children, h => by
    refine ⟨?_, containsAll_of_entries children fun e he => h e (List.mem_cons_of_mem _ he)⟩
    obtain ⟨_, hnode⟩ := Holds.node_eq ⟨parent, h⟩
    rw [ParseTree.children, hnode, branches_eq_map, List.map_map]
    exact List.map_congr_left fun x _ => (slot_branch x).symm
  | .token _, _ | .discarded _, _ => trivial

theorem containsAll_of_entries {parent : Option NodeId} : ∀ xs : List Subtree,
    (∀ entry ∈ entriesOf parent xs, t.nodes[entry.1]? = some entry.2) →
      t.ContainsAll (branches xs)
  | [], _ => trivial
  | x :: xs, h =>
    ⟨contains_of_entries x fun e he => h e (List.mem_append_left _ he),
      containsAll_of_entries xs fun e he => h e (List.mem_append_right _ he)⟩

end

theorem Holds.contains (h : t.Holds x) : t.Contains x.branch := by
  obtain ⟨parent, h⟩ := h
  exact contains_of_entries x h

theorem toList_nodes (t : ParseTree) : t.nodes.toList = (List.range t.size).map t.node := by
  refine List.ext_getElem (by simp [size]) fun i hi _ => ?_
  have hi : i < t.nodes.size := by simpa using hi
  simp [node, hi]

/-- A tree of one subtree is known by that, its tokens and the nodes noted. -/
theorem IsWhole.tree_eq {t' : ParseTree} (h : t.IsWhole x) (h' : t'.IsWhole x)
    (htokens : t'.tokens = t.tokens) (hreported : t'.reported = t.reported) : t' = t := by
  have hroot : t'.root = t.root := Slot.node.inj (h'.slot_eq.symm.trans h.slot_eq)
  have hsize : t'.nodes.size = t.nodes.size := by
    simpa [size] using h'.perm.length_eq.symm.trans h.perm.length_eq
  -- Every place among the nodes is that of a node of the subtree, which says what stands there.
  have hnodes : t'.nodes = t.nodes := by
    refine Array.ext hsize fun i hi hi' => ?_
    have hmem : i ∈ (x.entries none).map Prod.fst := by
      rw [map_fst_entries]
      exact h.perm.mem_iff.mpr (List.mem_range.mpr hi')
    obtain ⟨entry, hentry, rfl⟩ := List.mem_map.mp hmem
    exact Option.some.inj (by
      rw [← Array.getElem?_eq_getElem hi, ← Array.getElem?_eq_getElem hi', h'.nodes_eq entry hentry,
        h.nodes_eq entry hentry])
  cases t
  cases t'
  cases hroot
  cases hnodes
  cases htokens
  cases hreported
  rfl

/-- The loops have steps enough for the whole tree. -/
theorem IsWhole.steps_le (h : t.IsWhole x) : x.branch.steps ≤ t.walkLength := by
  have hsnd : (x.entries none).map Prod.snd = x.branch.preorder.map t.node := by
    rw [← map_fst_entries none, List.map_map]
    refine List.map_congr_left fun entry he => ?_
    rw [Function.comp_apply, node, h.nodes_eq entry he]
    rfl
  have hperm : ((x.entries none).map Prod.snd).Perm t.nodes.toList := by
    rw [hsnd, t.toList_nodes]
    exact h.perm.map _
  -- The loops count the children over all nodes in the order of the arena, the steps of the branch
  -- in the order of the tree.
  have hfold : t.walkLength = ((x.entries none).map Prod.snd).foldl
      (fun n (node : Node) => n + node.children.size) (2 * t.size) := by
    rw [walkLength, ← Array.foldl_toList]
    exact (hperm.foldl_eq' (fun _ _ _ _ _ => by omega) _).symm
  have hsize : x.branch.preorder.length = t.size := by simpa using h.perm.length_eq
  have hcount := foldl_size_entries none x (2 * t.size)
  have hpos : 0 < x.branch.preorder.length := by
    have hslot := h.slot_eq
    cases x with
    | node => simp [Subtree.branch, Branch.preorder]
    | token | discarded => cases hslot
  rw [Branch.steps_eq, hfold]
  omega

/-- They have steps enough for each of its nodes. -/
theorem IsWhole.steps_le_of_mem (h : t.IsWhole x) (hy : y ∈ x.nodes) :
    y.branch.steps ≤ t.walkLength := by
  obtain ⟨hpre, hleaf⟩ := sublist_of_mem_nodes x hy
  have hle := h.steps_le
  rw [Branch.steps_eq] at hle ⊢
  have hpre := hpre.length_le
  have hleaf := hleaf.length_le
  omega

theorem IsWhole.preorder_eq (h : t.IsWhole x) (hy : Subtree.node id l span e children ∈ x.nodes) :
    t.preorder id = (Subtree.node id l span e children).branch.preorder :=
  ParseTree.preorder_eq (h.holds.of_mem_nodes hy).contains (h.steps_le_of_mem hy)

theorem IsWhole.leafIndices_eq (h : t.IsWhole x)
    (hy : Subtree.node id l span e children ∈ x.nodes) :
    t.leafIndices id = (Subtree.node id l span e children).branch.leafIndices :=
  ParseTree.leafIndices_eq (h.holds.of_mem_nodes hy).contains (h.steps_le_of_mem hy)

/-- No branch of a tree is longer than the tree has nodes. -/
theorem IsWhole.height_le (h : t.IsWhole x) (hy : y ∈ x.nodes) : y.branch.height ≤ t.size := by
  have hle := (sublist_of_mem_nodes x hy).1.length_le
  rw [h.perm.length_eq, List.length_range] at hle
  exact Nat.le_trans (Branch.height_le _) hle

/-- The branch of a node is that of its subtree. -/
theorem IsWhole.branch_eq (h : t.IsWhole x) (hy : Subtree.node id l span e children ∈ x.nodes) :
    t.branch id = (Subtree.node id l span e children).branch :=
  branchTo_eq _ _ _ (h.holds.of_mem_nodes hy).contains (h.height_le hy)

theorem IsWhole.exists_root (h : t.IsWhole x) :
    ∃ l span e children, x = Subtree.node t.root l span e children := by
  have hslot := h.slot_eq
  cases x with
  | node id l span e children =>
    obtain rfl := Slot.node.inj hslot
    exact ⟨l, span, e, children, rfl⟩
  | token | discarded => cases hslot

theorem IsWhole.root_mem (h : t.IsWhole x) : x ∈ x.nodes := by
  obtain ⟨l, span, e, children, rfl⟩ := h.exists_root
  exact List.mem_cons_self

/-- **Each node of such a tree has its subtree.** -/
theorem IsWhole.exists_mem_nodes (h : t.IsWhole x) (hid : id < t.size) :
    ∃ l span e children, Subtree.node id l span e children ∈ x.nodes :=
  Subtree.exists_mem_nodes x (h.perm.mem_iff.mpr (List.mem_range.mpr hid))

/-- **The nodes of such a tree are those below its root**, each once. -/
theorem IsWhole.preorder_perm (h : t.IsWhole x) :
    (t.preorder t.root).Perm (List.range t.size) := by
  have hmem := h.root_mem
  obtain ⟨l, span, e, children, rfl⟩ := h.exists_root
  rw [h.preorder_eq hmem]
  exact h.perm

/-! ## Errors and shapes -/

mutual

theorem intact_iff_of_entries {parent : Option NodeId} : ∀ x : Subtree,
    (∀ entry ∈ x.entries parent, t.nodes[entry.1]? = some entry.2) →
      (x.Intact ↔ (∀ i, x.slot ≠ .discarded i) ∧ ∀ id ∈ x.branch.preorder, t.isFaulty id = false)
  | .node id _ _ e children, h => by
    have hall := allIntact_iff_of_entries children fun e he => h e (List.mem_cons_of_mem _ he)
    obtain ⟨_, hnode⟩ := Holds.node_eq ⟨parent, h⟩
    -- A node is faulty by its own error or by its own slots, whatever stands below these.
    have hfaulty : t.isFaulty id = false ↔
        e = none ∧ ∀ x ∈ children, ∀ i, x.slot ≠ .discarded i := by
      simp only [isFaulty, ParseTree.children, hnode, Bool.or_eq_false_iff,
        List.any_eq_false, List.mem_map, forall_exists_index, and_imp,
        forall_apply_eq_imp_iff₂, Option.isSome_eq_false_iff, Option.isNone_iff_eq_none]
      refine and_congr_right fun _ => forall_congr' fun x => forall_congr' fun _ => ?_
      cases x <;> simp [slot]
    simp only [Intact, Subtree.branch, Branch.preorder, List.forall_mem_cons, hfaulty, hall]
    simp [slot, and_assoc]
  | .token _, _ => by simp [Intact, slot, Subtree.branch, Branch.preorder]
  | .discarded _, _ => by simp [Intact, slot]

theorem allIntact_iff_of_entries {parent : Option NodeId} : ∀ xs : List Subtree,
    (∀ entry ∈ entriesOf parent xs, t.nodes[entry.1]? = some entry.2) →
      (AllIntact xs ↔ (∀ x ∈ xs, ∀ i, x.slot ≠ .discarded i) ∧
        ∀ id ∈ Branch.preorderOf (branches xs), t.isFaulty id = false)
  | [], _ => by simp [AllIntact, branches, Branch.preorderOf]
  | x :: xs, h => by
    have hx := intact_iff_of_entries x fun e he => h e (List.mem_append_left _ he)
    have hxs := allIntact_iff_of_entries xs fun e he => h e (List.mem_append_right _ he)
    simp only [AllIntact, hx, hxs, branches, Branch.preorderOf, List.forall_mem_cons,
      List.forall_mem_append]
    exact ⟨fun ⟨⟨a, b⟩, c, d⟩ => ⟨⟨a, c⟩, b, d⟩, fun ⟨⟨a, c⟩, b, d⟩ => ⟨⟨a, b⟩, c, d⟩⟩

end

/-- **A tree is valid if it is the tree of an intact subtree**, and only then. -/
theorem IsWhole.isValid_iff (h : t.IsWhole x) : t.isValid = true ↔ x.Intact := by
  have hmem := h.root_mem
  have hslot := h.slot_eq
  have hiff := intact_iff_of_entries x h.nodes_eq
  obtain ⟨l, span, e, children, rfl⟩ := h.exists_root
  have hdiscarded (i : Nat) : Slot.node t.root ≠ .discarded i := fun hs => by cases hs
  rw [isValid, hasErrors, h.preorder_eq hmem, hiff, hslot, Bool.not_eq_true',
    List.any_eq_false]
  simp [hdiscarded]

/-- A tree with an error is not valid. -/
theorem IsWhole.isValid_eq_false (h : t.IsWhole x) {n : Node} (hn : t.nodes[id]? = some n)
    (he : n.error.isSome = true) : t.isValid = false := by
  have hlt : id < t.size := (Array.getElem?_eq_some_iff.mp hn).1
  have hmem : id ∈ t.preorder t.root := h.preorder_perm.mem_iff.mpr (List.mem_range.mpr hlt)
  have hfaulty : t.isFaulty id = true := by
    rw [isFaulty, node, hn, Option.getD_some, he, Bool.true_or]
  rw [isValid, hasErrors, List.any_eq_true.mpr ⟨id, hmem, hfaulty⟩]
  rfl

mutual

theorem shape_eq_of_entries {parent : Option NodeId} : ∀ x : Subtree,
    (∀ entry ∈ x.entries parent, t.nodes[entry.1]? = some entry.2) →
      x.branch.shape t = x.shape t.tokens
  | .node id _ _ _ children, h => by
    obtain ⟨_, hnode⟩ := Holds.node_eq ⟨parent, h⟩
    have hall := shapes_eq_of_entries children fun e he => h e (List.mem_cons_of_mem _ he)
    rw [Subtree.branch, Branch.shape, Subtree.shape, hall, label, hnode]
  | .token _, _ | .discarded _, _ => by simp [Subtree.branch, Branch.shape, Subtree.shape, token]

theorem shapes_eq_of_entries {parent : Option NodeId} : ∀ xs : List Subtree,
    (∀ entry ∈ entriesOf parent xs, t.nodes[entry.1]? = some entry.2) →
      Branch.shapes t (branches xs) = Subtree.shapes t.tokens xs
  | [], _ => by simp [branches, Branch.shapes, Subtree.shapes]
  | x :: xs, h => by
    rw [branches, Branch.shapes, Subtree.shapes,
      shape_eq_of_entries x fun e he => h e (List.mem_append_left _ he),
      shapes_eq_of_entries xs fun e he => h e (List.mem_append_right _ he)]

end

/-- The shape of a node is that of its subtree. -/
theorem IsWhole.shape_eq (h : t.IsWhole x) (hy : Subtree.node id l span e children ∈ x.nodes) :
    t.shape id = (Subtree.node id l span e children).shape t.tokens := by
  obtain ⟨parent, hentries⟩ := h.holds.of_mem_nodes hy
  rw [ParseTree.shape, h.branch_eq hy, shape_eq_of_entries _ hentries]

/-- The shape of the root is that of the whole. -/
theorem IsWhole.shape_root (h : t.IsWhole x) : t.shape t.root = x.shape t.tokens := by
  have hmem := h.root_mem
  obtain ⟨l, span, e, children, rfl⟩ := h.exists_root
  exact h.shape_eq hmem

end ParseTree

end PipeQuery

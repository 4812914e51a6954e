import PipeQuery.Proofs.Tree.Shape
import PipeQuery.Proofs.Tree.Walk

/-!
# Subtrees with their nodes

A subtree of an arena as a nested value that holds all of its nodes. What a parse does to its arena
it does to one node on an open path, and all else stays as it is; that is seen best on nested values.

## Main definitions

* `Subtree`, `Subtree.entries`: a subtree, and its nodes with their places in the arena
* `Subtree.isNode`: what is not a leaf
* `Subtree.branch`, `Subtree.shape`: what is left of it without the nodes, or without the places
* `Subtree.nodes`: the subtrees of all its nodes
* `Subtree.Intact`: a subtree without errors
* `Subtree.Tiles`: a subtree whose leaves are the tokens of its span, and likewise all below it

## Main results

* `Subtree.exists_mem_nodes`: each node of a subtree has its subtree
* `Subtree.Tiles.leafIndices`, `Subtree.Tiles.of_mem_nodes`: the leaves of a subtree that tiles its
  span, and of those below it
-/

namespace PipeQuery

open Token (Kind)

/-- A subtree with its nodes, or a leaf. -/
inductive Subtree where
  | node (id : NodeId) (label : Label) (span : TokenSpan) (error : Option SyntaxError)
    (children : List Subtree)
  | token (index : Nat)
  | discarded (index : Nat)

namespace Subtree

/-- The slot that a subtree takes below its parent. -/
def slot : Subtree → Slot
  | node id .. => .node id
  | token i => .token i
  | discarded i => .discarded i

/-- Whether a subtree is that of a node. -/
def isNode : Subtree → Bool
  | node .. => true
  | token _ | discarded _ => false

mutual

/-- The nodes of a subtree with their places, each before those below it. -/
def entries (parent : Option NodeId) : Subtree → List (NodeId × Node)
  | node id label span error children =>
    (id, ⟨label, parent, (children.map slot).toArray, span, error⟩) ::
      entriesOf (some id) children
  | token _ | discarded _ => []

/-- The nodes of subtrees side by side. -/
def entriesOf (parent : Option NodeId) : List Subtree → List (NodeId × Node)
  | [] => []
  | x :: xs => entries parent x ++ entriesOf parent xs

end

mutual

/-- The subtree without what its nodes hold. -/
def branch : Subtree → Branch
  | node id _ _ _ children => .node id (branches children)
  | token i => .token i
  | discarded i => .discarded i

/-- Subtrees side by side without what their nodes hold. -/
def branches : List Subtree → List Branch
  | [] => []
  | x :: xs => branch x :: branches xs

end

mutual

/-- The shape of a subtree over these tokens. -/
def shape (tokens : Array Token) : Subtree → Shape
  | node _ label _ _ children => .node label (shapes tokens children)
  | token i => .token (tokens[i]?.getD default).kind
  | discarded i => .discarded (tokens[i]?.getD default).kind

/-- The shapes of subtrees side by side. -/
def shapes (tokens : Array Token) : List Subtree → List Shape
  | [] => []
  | x :: xs => shape tokens x :: shapes tokens xs

end

mutual

/-- The subtrees of the nodes of a subtree, itself included. -/
def nodes : Subtree → List Subtree
  | node id label span error children => node id label span error children :: nodesOf children
  | token _ | discarded _ => []

/-- The subtrees of the nodes of subtrees side by side. -/
def nodesOf : List Subtree → List Subtree
  | [] => []
  | x :: xs => nodes x ++ nodesOf xs

end

mutual

/-- A subtree without errors and discarded tokens. -/
def Intact : Subtree → Prop
  | node _ _ _ error children => error = none ∧ AllIntact children
  | token _ => True
  | discarded _ => False

/-- Subtrees without errors side by side. -/
def AllIntact : List Subtree → Prop
  | [] => True
  | x :: xs => Intact x ∧ AllIntact xs

end

mutual

/-- The leaves of a subtree are the tokens from a place up to another; each node spans its
leaves. -/
def Tiles : Subtree → Nat → Nat → Prop
  | node _ _ span _ children, i, j => span = ⟨i, j⟩ ∧ AllTile children i j
  | token k, i, j => k = i ∧ j = i + 1
  | discarded k, i, j => k = i ∧ j = i + 1

/-- The leaves of subtrees side by side are the tokens from a place up to another. -/
def AllTile : List Subtree → Nat → Nat → Prop
  | [], i, j => i = j
  | x :: xs, i, j => ∃ k, Tiles x i k ∧ AllTile xs k j

end

/-! ## Subtrees side by side -/

theorem entriesOf_append (parent : Option NodeId) (xs ys : List Subtree) :
    entriesOf parent (xs ++ ys) = entriesOf parent xs ++ entriesOf parent ys := by
  induction xs with
  | nil => rfl
  | cons x xs ih => rw [List.cons_append, entriesOf, entriesOf, ih, List.append_assoc]

theorem branches_eq_map (xs : List Subtree) : branches xs = xs.map branch := by
  induction xs with
  | nil => rfl
  | cons x xs ih => rw [branches, ih, List.map_cons]

theorem entries_subset_of_mem {parent : Option NodeId} {x : Subtree} {xs : List Subtree}
    (h : x ∈ xs) : entries parent x ⊆ entriesOf parent xs := by
  induction xs with
  | nil => cases h
  | cons y xs ih =>
    rw [entriesOf]
    rcases List.mem_cons.mp h with rfl | h
    · exact List.subset_append_left _ _
    · exact List.Subset.trans (ih h) (List.subset_append_right _ _)

theorem shapes_append (tokens : Array Token) (xs ys : List Subtree) :
    shapes tokens (xs ++ ys) = shapes tokens xs ++ shapes tokens ys := by
  induction xs with
  | nil => rfl
  | cons x xs ih => rw [List.cons_append, shapes, shapes, ih, List.cons_append]

theorem leafIndicesOf_append (xs ys : List Subtree) :
    Branch.leafIndicesOf (branches (xs ++ ys)) =
      Branch.leafIndicesOf (branches xs) ++ Branch.leafIndicesOf (branches ys) := by
  induction xs with
  | nil => rfl
  | cons x xs ih =>
    rw [List.cons_append, branches, branches, Branch.leafIndicesOf, Branch.leafIndicesOf, ih,
      List.append_assoc]

theorem leafIndicesOf_tokens (is : List Nat) :
    Branch.leafIndicesOf (branches (is.map .token)) = is := by
  induction is with
  | nil => rfl
  | cons i is ih =>
    rw [List.map_cons, branches, Branch.leafIndicesOf, ih, branch, Branch.leafIndices]
    rfl

theorem allIntact_append (xs ys : List Subtree) :
    AllIntact (xs ++ ys) ↔ AllIntact xs ∧ AllIntact ys := by
  induction xs with
  | nil => simp [AllIntact]
  | cons x xs ih => rw [List.cons_append, AllIntact, AllIntact, ih, and_assoc]

theorem AllTile.append {xs ys : List Subtree} {i j k : Nat} (hx : AllTile xs i j)
    (hy : AllTile ys j k) : AllTile (xs ++ ys) i k := by
  induction xs generalizing i with
  | nil =>
    obtain rfl : i = j := hx
    exact hy
  | cons x xs ih =>
    obtain ⟨m, hm, hxs⟩ := hx
    exact ⟨m, hm, ih hxs⟩

theorem slot_branch (x : Subtree) : x.branch.slot = x.slot := by
  cases x <;> simp [branch, slot, Branch.slot]

mutual

theorem map_fst_entries (parent : Option NodeId) :
    ∀ x : Subtree, (entries parent x).map Prod.fst = x.branch.preorder
  | node id _ _ _ children => by
    rw [entries, branch, Branch.preorder, List.map_cons, map_fst_entriesOf (some id) children]
  | token _ | discarded _ => by simp [entries, branch, Branch.preorder]

theorem map_fst_entriesOf (parent : Option NodeId) :
    ∀ xs : List Subtree, (entriesOf parent xs).map Prod.fst = Branch.preorderOf (branches xs)
  | [] => rfl
  | x :: xs => by
    rw [entriesOf, branches, Branch.preorderOf, List.map_append, map_fst_entries parent x,
      map_fst_entriesOf parent xs]

end

/-! ## The subtrees of the nodes -/

theorem nodes_subset_of_mem {x : Subtree} {xs : List Subtree} (h : x ∈ xs) :
    nodes x ⊆ nodesOf xs := by
  induction xs with
  | nil => cases h
  | cons y xs ih =>
    rw [nodesOf]
    rcases List.mem_cons.mp h with rfl | h
    · exact List.subset_append_left _ _
    · exact List.Subset.trans (ih h) (List.subset_append_right _ _)

mutual

/-- Each node of a subtree has its own subtree. -/
theorem exists_mem_nodes {id : NodeId} :
    ∀ x : Subtree, id ∈ x.branch.preorder →
      ∃ l span e children, node id l span e children ∈ nodes x
  | node id' l span e children, h => by
    rw [branch, Branch.preorder, List.mem_cons] at h
    rcases h with rfl | h
    · exact ⟨l, span, e, children, List.mem_cons_self⟩
    · obtain ⟨l', span', e', cs, hmem⟩ := exists_mem_nodesOf children h
      exact ⟨l', span', e', cs, List.mem_cons_of_mem _ hmem⟩
  | token _, h | discarded _, h => by simp [branch, Branch.preorder] at h

theorem exists_mem_nodesOf {id : NodeId} :
    ∀ xs : List Subtree, id ∈ Branch.preorderOf (branches xs) →
      ∃ l span e children, node id l span e children ∈ nodesOf xs
  | [], h => by simp [branches, Branch.preorderOf] at h
  | x :: xs, h => by
    rw [branches, Branch.preorderOf, List.mem_append] at h
    rcases h with h | h
    · obtain ⟨l, span, e, cs, hmem⟩ := exists_mem_nodes x h
      exact ⟨l, span, e, cs, List.mem_append_left _ hmem⟩
    · obtain ⟨l, span, e, cs, hmem⟩ := exists_mem_nodesOf xs h
      exact ⟨l, span, e, cs, List.mem_append_right _ hmem⟩

end

mutual

/-- The entries of the subtree of a node are among those of the whole. -/
theorem entries_subset (parent : Option NodeId) {y : Subtree} :
    ∀ x : Subtree, y ∈ nodes x → ∃ p, entries p y ⊆ entries parent x
  | node id l span e children, h => by
    rw [nodes, List.mem_cons] at h
    rcases h with rfl | h
    · exact ⟨parent, List.Subset.refl _⟩
    · obtain ⟨p, hp⟩ := entriesOf_subset (some id) children h
      exact ⟨p, fun e he => List.mem_cons_of_mem _ (hp he)⟩
  | token _, h | discarded _, h => by simp [nodes] at h

theorem entriesOf_subset (parent : Option NodeId) {y : Subtree} :
    ∀ xs : List Subtree, y ∈ nodesOf xs → ∃ p, entries p y ⊆ entriesOf parent xs
  | [], h => by simp [nodesOf] at h
  | x :: xs, h => by
    rw [nodesOf, List.mem_append] at h
    rcases h with h | h
    · obtain ⟨p, hp⟩ := entries_subset parent x h
      exact ⟨p, fun e he => List.mem_append_left _ (hp he)⟩
    · obtain ⟨p, hp⟩ := entriesOf_subset parent xs h
      exact ⟨p, fun e he => List.mem_append_right _ (hp he)⟩

end

mutual

/-- The nodes and leaves below a node are among those of the whole, in the same order. -/
theorem sublist_of_mem_nodes {y : Subtree} : ∀ x : Subtree, y ∈ nodes x →
    y.branch.preorder.Sublist x.branch.preorder ∧
      y.branch.leafIndices.Sublist x.branch.leafIndices
  | node id l span e children, h => by
    rw [nodes, List.mem_cons] at h
    rcases h with rfl | h
    · exact ⟨List.Sublist.refl _, List.Sublist.refl _⟩
    · rw [branch, Branch.preorder, Branch.leafIndices]
      obtain ⟨hpre, hleaf⟩ := sublist_of_mem_nodesOf children h
      exact ⟨hpre.cons id, hleaf⟩
  | token _, h | discarded _, h => by simp [nodes] at h

theorem sublist_of_mem_nodesOf {y : Subtree} : ∀ xs : List Subtree, y ∈ nodesOf xs →
    y.branch.preorder.Sublist (Branch.preorderOf (branches xs)) ∧
      y.branch.leafIndices.Sublist (Branch.leafIndicesOf (branches xs))
  | [], h => by simp [nodesOf] at h
  | x :: xs, h => by
    rw [nodesOf, List.mem_append] at h
    rw [branches, Branch.preorderOf, Branch.leafIndicesOf]
    rcases h with h | h
    · obtain ⟨hpre, hleaf⟩ := sublist_of_mem_nodes x h
      exact ⟨hpre.trans (List.sublist_append_left _ _), hleaf.trans (List.sublist_append_left _ _)⟩
    · obtain ⟨hpre, hleaf⟩ := sublist_of_mem_nodesOf xs h
      exact ⟨hpre.trans (List.sublist_append_right _ _),
        hleaf.trans (List.sublist_append_right _ _)⟩

end

/-! ## Tiles -/

mutual

theorem Tiles.le {i j : Nat} : ∀ {x : Subtree}, Tiles x i j → i ≤ j
  | node .., h => AllTile.le h.2
  | token _, h | discarded _, h => by
    have := h.2
    omega

theorem AllTile.le {i j : Nat} : ∀ {xs : List Subtree}, AllTile xs i j → i ≤ j
  | [], h => Nat.le_of_eq h
  | _ :: _, h => by
    obtain ⟨k, hx, hxs⟩ := h
    exact Nat.le_trans hx.le hxs.le

end

mutual

/-- The leaves of a subtree that tiles the tokens are these tokens. -/
theorem Tiles.leafIndices {i j : Nat} :
    ∀ {x : Subtree}, Tiles x i j → x.branch.leafIndices = List.range' i (j - i)
  | node .., h => by
    rw [branch, Branch.leafIndices, AllTile.leafIndices h.2]
  | token _, h | discarded _, h => by
    obtain ⟨rfl, rfl⟩ := h
    simp [branch, Branch.leafIndices]

theorem AllTile.leafIndices {i j : Nat} : ∀ {xs : List Subtree}, AllTile xs i j →
    Branch.leafIndicesOf (branches xs) = List.range' i (j - i)
  | [], h => by
    obtain rfl : i = j := h
    simp [branches, Branch.leafIndicesOf]
  | x :: xs, h => by
    obtain ⟨k, hx, hxs⟩ := h
    have hik := hx.le
    have hkj := hxs.le
    rw [branches, Branch.leafIndicesOf, hx.leafIndices, hxs.leafIndices]
    have hk : k = i + (k - i) := by omega
    conv => lhs; rw [hk]
    rw [Nat.add_sub_cancel_left, List.range'_append_1]
    congr 1
    omega

end

mutual

/-- What tiles its tokens has all its nodes tile theirs. -/
theorem Tiles.of_mem_nodes {i j : Nat} {y : Subtree} : ∀ {x : Subtree}, Tiles x i j →
    y ∈ nodes x → ∃ i' j', i ≤ i' ∧ j' ≤ j ∧ Tiles y i' j'
  | node .., h, hy => by
    rw [nodes, List.mem_cons] at hy
    rcases hy with rfl | hy
    · exact ⟨i, j, Nat.le_refl i, Nat.le_refl j, h⟩
    · exact AllTile.of_mem_nodesOf h.2 hy
  | token _, _, hy | discarded _, _, hy => by simp [nodes] at hy

theorem AllTile.of_mem_nodesOf {i j : Nat} {y : Subtree} : ∀ {xs : List Subtree},
    AllTile xs i j → y ∈ nodesOf xs → ∃ i' j', i ≤ i' ∧ j' ≤ j ∧ Tiles y i' j'
  | [], _, hy => by simp [nodesOf] at hy
  | x :: xs, h, hy => by
    obtain ⟨k, hx, hxs⟩ := h
    have hik := hx.le
    have hkj := hxs.le
    rw [nodesOf, List.mem_append] at hy
    rcases hy with hy | hy
    · obtain ⟨i', j', hi, hj, hy⟩ := hx.of_mem_nodes hy
      exact ⟨i', j', hi, Nat.le_trans hj hkj, hy⟩
    · obtain ⟨i', j', hi, hj, hy⟩ := hxs.of_mem_nodesOf hy
      exact ⟨i', j', Nat.le_trans hik hi, hj, hy⟩

end

/-! ## The number of steps of a walk -/

mutual

/-- Each node and each leaf, apart from the topmost, takes one slot below a node. -/
theorem foldl_size_entries (parent : Option NodeId) : ∀ (x : Subtree) (n : Nat),
    ((entries parent x).map Prod.snd).foldl (fun n (node : Node) => n + node.children.size) n + 1 =
      n + x.branch.preorder.length + x.branch.leafIndices.length
  | node id _ _ _ children, n => by
    have := foldl_size_entriesOf (some id) children (n + children.length)
    simp only [entries, branch, Branch.preorder, Branch.leafIndices, List.map_cons,
      List.foldl_cons, List.length_cons, List.size_toArray, List.length_map]
    omega
  | token _, n | discarded _, n => by
    simp [entries, branch, Branch.preorder, Branch.leafIndices]

theorem foldl_size_entriesOf (parent : Option NodeId) : ∀ (xs : List Subtree) (n : Nat),
    ((entriesOf parent xs).map Prod.snd).foldl (fun n (node : Node) => n + node.children.size) n +
      xs.length =
        n + (Branch.preorderOf (branches xs)).length + (Branch.leafIndicesOf (branches xs)).length
  | [], n => by simp [entriesOf, branches, Branch.preorderOf, Branch.leafIndicesOf]
  | x :: xs, n => by
    have hx := foldl_size_entries parent x n
    simp only [entriesOf, branches, Branch.preorderOf, Branch.leafIndicesOf, List.map_append,
      List.foldl_append, List.length_append, List.length_cons]
    have hxs := foldl_size_entriesOf parent xs
      (((entries parent x).map Prod.snd).foldl (fun n (node : Node) => n + node.children.size) n)
    omega

end

end Subtree

end PipeQuery

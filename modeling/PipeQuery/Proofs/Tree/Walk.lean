import PipeQuery.Tree.Branch
import PipeQuery.Tree.Walk

/-!
# Walks and branches

What a loop finds in the subtree of a node, with a stack of what is still to be looked at, is what
recursion on the branch of the node finds. The invariant is the same for all loops: when everything
that was put on the stack for a branch has been taken off again, the stack is what it was, and the
result of the branch stands behind what was found before.

## Main definitions

* `Branch.slot`, `ParseTree.Contains`: the place of a branch below its parent, and the branches of a
  tree
* `Branch.extent`, `Branch.steps`: the steps that loops take through a branch
* `stackOf`: a stack by the order in which things are taken from it

## Main results

* `ParseTree.preorderFrom_branch`, `ParseTree.leavesFrom_branch`: the nodes and leaves of a branch
  are taken off the stack
* `ParseTree.preorder_eq`, `ParseTree.leafIndices_eq`: the nodes and leaves that are found
* `ParseTree.branchTo_eq`: a branch of a tree is found by its node
-/

namespace PipeQuery

namespace Branch

/-- The slot that a branch takes below its parent. -/
def slot : Branch → Slot
  | node id _ => .node id
  | token i => .token i
  | discarded i => .discarded i

/-- The node of a branch, if it is no leaf. -/
def id? : Branch → Option NodeId
  | node id _ => some id
  | token _ | discarded _ => none

mutual

/-- The number of nodes and leaves. -/
def extent : Branch → Nat
  | node _ children => extentOf children + 1
  | token _ | discarded _ => 1

/-- The number of nodes and leaves side by side. -/
def extentOf : List Branch → Nat
  | [] => 0
  | b :: bs => extent b + extentOf bs

end

mutual

/-- The steps of a loop that comes to each node twice and to each leaf once. -/
def steps : Branch → Nat
  | node _ children => stepsOf children + 2
  | token _ | discarded _ => 1

/-- The steps of such a loop for branches side by side. -/
def stepsOf : List Branch → Nat
  | [] => 0
  | b :: bs => steps b + stepsOf bs

end

/-- Steps are counted down, so the one into a node is added last, and the one out of it first. -/
theorem add_steps_node (n : Nat) (id : NodeId) (children : List Branch) :
    n + (node id children).steps = n + 1 + stepsOf children + 1 := by
  rw [steps]
  omega

/-- Steps are counted down, so those of a first branch are added last. -/
theorem add_stepsOf_cons (n : Nat) (b : Branch) (bs : List Branch) :
    n + stepsOf (b :: bs) = n + stepsOf bs + b.steps := by
  rw [stepsOf]
  omega

/-- In a loop that starts inside of a node the step into it is left over. -/
theorem exists_eq_of_steps_le {n : Nat} {id : NodeId} {children : List Branch}
    (h : (node id children).steps ≤ n) : ∃ m, n = m + 1 + 1 + stepsOf children := by
  obtain ⟨m, rfl⟩ := Nat.exists_eq_add_of_le' h
  exact ⟨m, by rw [add_steps_node, Nat.add_right_comm]⟩

mutual

/-- The number of nodes on the longest way down. -/
def height : Branch → Nat
  | node _ children => heightOf children + 1
  | token _ | discarded _ => 0

/-- The greatest height of branches side by side. -/
def heightOf : List Branch → Nat
  | [] => 0
  | b :: bs => max (height b) (heightOf bs)

end

mutual

theorem extent_eq : ∀ b : Branch, extent b = (preorder b).length + (leafIndices b).length
  | node id children => by
    have := extentOf_eq children
    simp only [extent, preorder, leafIndices, List.length_cons]
    omega
  | token i => by simp [extent, preorder, leafIndices]
  | discarded i => by simp [extent, preorder, leafIndices]

theorem extentOf_eq : ∀ bs : List Branch,
    extentOf bs = (preorderOf bs).length + (leafIndicesOf bs).length
  | [] => rfl
  | b :: bs => by
    have := extent_eq b
    have := extentOf_eq bs
    simp only [extentOf, preorderOf, leafIndicesOf, List.length_append]
    omega

end

mutual

theorem steps_eq : ∀ b : Branch, steps b = 2 * (preorder b).length + (leafIndices b).length
  | node id children => by
    have := stepsOf_eq children
    simp only [steps, preorder, leafIndices, List.length_cons]
    omega
  | token i => by simp [steps, preorder, leafIndices]
  | discarded i => by simp [steps, preorder, leafIndices]

theorem stepsOf_eq : ∀ bs : List Branch,
    stepsOf bs = 2 * (preorderOf bs).length + (leafIndicesOf bs).length
  | [] => rfl
  | b :: bs => by
    have := steps_eq b
    have := stepsOf_eq bs
    simp only [stepsOf, preorderOf, leafIndicesOf, List.length_append]
    omega

end

theorem extent_le_steps (b : Branch) : extent b ≤ steps b := by
  rw [extent_eq, steps_eq]
  omega

theorem length_preorder_le_steps (b : Branch) : (preorder b).length ≤ steps b := by
  rw [steps_eq]
  omega

mutual

theorem height_le : ∀ b : Branch, height b ≤ (preorder b).length
  | node id children => by
    have := heightOf_le children
    simp only [height, preorder, List.length_cons]
    omega
  | token i => Nat.zero_le _
  | discarded i => Nat.zero_le _

theorem heightOf_le : ∀ bs : List Branch, heightOf bs ≤ (preorderOf bs).length
  | [] => Nat.zero_le _
  | b :: bs => by
    have := height_le b
    have := heightOf_le bs
    simp only [heightOf, preorderOf, List.length_append]
    omega

end

end Branch

/-! ## Stacks -/

section Stacks

variable {α : Type}

/-- The stack from which these are taken, the first of them first. -/
def stackOf (pending : List α) : Array α := pending.reverse.toArray

theorem back?_stackOf (a : α) (pending : List α) : (stackOf (a :: pending)).back? = some a := by
  simp [stackOf]

theorem pop_stackOf (a : α) (pending : List α) :
    (stackOf (a :: pending)).pop = stackOf pending := by
  simp [stackOf]

/-- What is put on a stack in reverse is taken from it in order. -/
theorem stackOf_append (as pending : List α) :
    stackOf pending ++ as.reverse = stackOf (as ++ pending) := by
  simp [stackOf]

end Stacks

namespace ParseTree

open Branch

variable {t : ParseTree} {id : NodeId} {children : List Branch}

mutual

/-- The nodes of a branch have the children in the tree that they have in the branch. -/
def Contains (t : ParseTree) : Branch → Prop
  | .node id children => t.children id = children.map slot ∧ ContainsAll t children
  | .token _ | .discarded _ => True

/-- All of several branches are in the tree. -/
def ContainsAll (t : ParseTree) : List Branch → Prop
  | [] => True
  | b :: bs => Contains t b ∧ ContainsAll t bs

end

theorem childNodes_of_children (h : t.children id = children.map slot) :
    t.childNodes id = children.filterMap id? := by
  rw [childNodes, h, List.filterMap_map]
  refine congrArg (fun f => children.filterMap f) (funext fun b => ?_)
  cases b <;> rfl

theorem children_getElem? {id : NodeId} {before behind : List Slot} {slot : Slot}
    (h : t.children id = before ++ slot :: behind) :
    (t.node id).children[before.length]? = some slot := by
  rw [← Array.getElem?_toList, ← children, h, List.getElem?_append_right (Nat.le_refl _),
    Nat.sub_self]
  rfl

theorem children_getElem?_length {bs : List Branch} (h : t.children id = bs.map slot) :
    (t.node id).children[bs.length]? = none := by
  rw [← Array.getElem?_toList, ← children, h, List.getElem?_map,
    List.getElem?_eq_none (Nat.le_refl _)]
  rfl

/-! ## Nodes -/

theorem preorderFrom_cons (t : ParseTree) (n : Nat) (id : NodeId) (pending : List NodeId)
    (met : Array NodeId) :
    t.preorderFrom (n + 1) (stackOf (id :: pending)) met =
      t.preorderFrom n (stackOf (t.childNodes id ++ pending)) (met.push id) := by
  simp only [preorderFrom, nextNode?, back?_stackOf, pop_stackOf, Option.map_some, stackOf_append]

theorem preorderFrom_nil (t : ParseTree) (n : Nat) (met : Array NodeId) :
    t.preorderFrom n (stackOf []) met = met := by
  cases n <;> rfl

mutual

/-- The nodes of a branch are taken off the stack before those that are pending. -/
theorem preorderFrom_branch : ∀ (b : Branch) (_ : t.Contains b) (n : Nat) (pending : List NodeId)
    (met : Array NodeId),
    t.preorderFrom (n + b.preorder.length) (stackOf (b.id?.toList ++ pending)) met =
      t.preorderFrom n (stackOf pending) (met ++ b.preorder.toArray)
  | .node id children, h, n, pending, met => by
    have hall := preorderFrom_branches children h.2 n pending (met.push id)
    show t.preorderFrom (n + (preorderOf children).length + 1) (stackOf (id :: pending)) met = _
    rw [preorderFrom_cons, childNodes_of_children h.1, hall, Branch.preorder]
    simp
  | .token i, _, n, pending, met => by simp [Branch.preorder, id?]
  | .discarded i, _, n, pending, met => by simp [Branch.preorder, id?]

theorem preorderFrom_branches : ∀ (bs : List Branch) (_ : t.ContainsAll bs) (n : Nat)
    (pending : List NodeId) (met : Array NodeId),
    t.preorderFrom (n + (preorderOf bs).length) (stackOf (bs.filterMap id? ++ pending)) met =
      t.preorderFrom n (stackOf pending) (met ++ (preorderOf bs).toArray)
  | [], _, n, pending, met => by simp [preorderOf]
  | b :: bs, h, n, pending, met => by
    have hlen : n + (preorderOf (b :: bs)).length =
        n + (preorderOf bs).length + b.preorder.length := by
      simp only [preorderOf, List.length_append]
      omega
    have hstack : (b :: bs).filterMap id? ++ pending =
        b.id?.toList ++ (bs.filterMap id? ++ pending) := by
      cases b <;> rfl
    rw [hlen, hstack, preorderFrom_branch b h.1, preorderFrom_branches bs h.2, preorderOf]
    simp

end

/-- **The nodes that are found** are those of the branch. -/
theorem preorder_eq (h : t.Contains (.node id children))
    (hn : (Branch.node id children).steps ≤ t.walkLength) :
    t.preorder id = (Branch.node id children).preorder := by
  obtain ⟨n, hn⟩ := Nat.exists_eq_add_of_le'
    (Nat.le_trans (length_preorder_le_steps (.node id children)) hn)
  have hloop := preorderFrom_branch _ h n [] #[]
  rw [preorderFrom_nil, ← hn] at hloop
  exact (congrArg Array.toList hloop).trans (by simp)

/-! ## Leaves -/

theorem leavesFrom_node (t : ParseTree) (n : Nat) (id : NodeId) (pending : List Slot)
    (met : Array Nat) :
    t.leavesFrom (n + 1) (stackOf (.node id :: pending)) met =
      t.leavesFrom n (stackOf (t.children id ++ pending)) met := by
  simp only [leavesFrom, back?_stackOf, pop_stackOf, stackOf_append]

theorem leavesFrom_token (t : ParseTree) (n i : Nat) (pending : List Slot) (met : Array Nat) :
    t.leavesFrom (n + 1) (stackOf (.token i :: pending)) met =
      t.leavesFrom n (stackOf pending) (met.push i) := by
  simp only [leavesFrom, back?_stackOf, pop_stackOf]

theorem leavesFrom_discarded (t : ParseTree) (n i : Nat) (pending : List Slot) (met : Array Nat) :
    t.leavesFrom (n + 1) (stackOf (.discarded i :: pending)) met =
      t.leavesFrom n (stackOf pending) (met.push i) := by
  simp only [leavesFrom, back?_stackOf, pop_stackOf]

theorem leavesFrom_nil (t : ParseTree) (n : Nat) (met : Array Nat) :
    t.leavesFrom n (stackOf []) met = met := by
  cases n <;> rfl

mutual

/-- The leaves of a branch are met before those that are pending. -/
theorem leavesFrom_branch : ∀ (b : Branch) (_ : t.Contains b) (n : Nat) (pending : List Slot)
    (met : Array Nat),
    t.leavesFrom (n + extent b) (stackOf (b.slot :: pending)) met =
      t.leavesFrom n (stackOf pending) (met ++ b.leafIndices.toArray)
  | .node id children, h, n, pending, met => by
    have hall := leavesFrom_branches children h.2 n pending met
    rw [extent, ← Nat.add_assoc, slot, leavesFrom_node, h.1, hall, Branch.leafIndices]
  | .token i, _, n, pending, met => by simp [extent, slot, leavesFrom_token, Branch.leafIndices]
  | .discarded i, _, n, pending, met => by
    simp [extent, slot, leavesFrom_discarded, Branch.leafIndices]

theorem leavesFrom_branches : ∀ (bs : List Branch) (_ : t.ContainsAll bs) (n : Nat)
    (pending : List Slot) (met : Array Nat),
    t.leavesFrom (n + extentOf bs) (stackOf (bs.map slot ++ pending)) met =
      t.leavesFrom n (stackOf pending) (met ++ (leafIndicesOf bs).toArray)
  | [], _, n, pending, met => by simp [extentOf, leafIndicesOf]
  | b :: bs, h, n, pending, met => by
    rw [extentOf, Nat.add_comm (extent b), ← Nat.add_assoc, List.map_cons, List.cons_append,
      leavesFrom_branch b h.1, leavesFrom_branches bs h.2, leafIndicesOf]
    simp

end

/-- **The leaves that are found** are those of the branch. -/
theorem leafIndices_eq (h : t.Contains (.node id children))
    (hn : (Branch.node id children).steps ≤ t.walkLength) :
    t.leafIndices id = (Branch.node id children).leafIndices := by
  have hle : extentOf children ≤ t.walkLength := by
    have hextent := extent_le_steps (.node id children)
    rw [extent] at hextent
    omega
  obtain ⟨n, hn⟩ := Nat.exists_eq_add_of_le' hle
  have hloop := leavesFrom_branches children h.2 n [] #[]
  rw [leavesFrom_nil, ← hn, List.append_nil, ← h.1] at hloop
  exact (congrArg Array.toList hloop).trans (by simp [Branch.leafIndices])

/-! ## Branches -/

/-- **A branch of a tree is found by its node.** -/
theorem branchTo_eq : ∀ (n : Nat) (id : NodeId) (children : List Branch),
    t.Contains (.node id children) → (Branch.node id children).height ≤ n →
      t.branchTo n id = .node id children
  | 0, id, children, _, hn => by simp [height] at hn
  | n + 1, id, children, h, hn => by
    -- The function for the children is a local one of the search, so it is known by its equations.
    have hall (f : Slot → Branch) (hnode : ∀ c, f (.node c) = t.branchTo n c)
        (htoken : ∀ i, f (.token i) = .token i) (hdiscarded : ∀ i, f (.discarded i) = .discarded i)
        (bs : List Branch) (hbs : t.ContainsAll bs) (hle : heightOf bs ≤ n) :
        (bs.map slot).map f = bs := by
      induction bs with
      | nil => rfl
      | cons b bs ih =>
        have hb : b.height ≤ n := Nat.le_trans (Nat.le_max_left _ _) hle
        have hrest := ih hbs.2 (Nat.le_trans (Nat.le_max_right _ _) hle)
        rw [List.map_cons, List.map_cons, hrest]
        congr 1
        cases b with
        | node c cs => exact (hnode c).trans (branchTo_eq n c cs hbs.1 hb)
        | token i => exact htoken i
        | discarded i => exact hdiscarded i
    rw [branchTo, h.1]
    congr 1
    exact hall _ (fun _ => rfl) (fun _ => rfl) (fun _ => rfl) children h.2
      (by simpa [height] using hn)

end ParseTree

end PipeQuery

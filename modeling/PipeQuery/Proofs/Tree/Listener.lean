import PipeQuery.Proofs.Tree.Walk
import PipeQuery.Tree.Listener

/-!
# The calls of a walk

A walk makes the calls that recursion on the branch of its node makes, whoever listens. So its calls
are nested like the nodes: between the calls that enter a node and those that leave it, there are
those for its children, in order, and no others.

## Main definitions

* `Call.entered?`, `Call.leaf?`: the node that a call enters, and the token that it visits
* `Call.depths`: what calls come to, with its depth
* `ParseTree.Nested`: calls that are properly nested

## Main results

* `ParseTree.walkFrom_branch`: the calls for the next child of the innermost node are made
* `ParseTree.walkNode_eq`, `ParseTree.calls_eq`: the calls of a walk are those of the branch
* `Branch.nested_calls`, `Branch.count_calls`: these are nested, and a node is entered as often as
  it stands in the branch
-/

namespace PipeQuery

namespace Call

/-- The node that is entered as every rule. -/
def entered? : Call → Option NodeId
  | enterEveryRule id => some id
  | _ => none

/-- The token that is visited. -/
def leaf? : Call → Option Nat
  | visitTerminal i | visitErrorNode i => some i
  | _ => none

/-- The nodes and tokens that calls come to, each with the number of nodes that are entered and not
yet left, if there are `depth` at first. -/
def depths (depth : Nat) : List Call → List (Slot × Nat)
  | [] => []
  | enterEveryRule id :: cs => (.node id, depth) :: depths (depth + 1) cs
  | exitEveryRule _ :: cs => depths (depth - 1) cs
  | visitTerminal i :: cs => (.token i, depth) :: depths depth cs
  | visitErrorNode i :: cs => (.discarded i, depth) :: depths depth cs
  | enter _ _ :: cs | exit _ _ :: cs => depths depth cs

end Call

namespace ParseTree

open Branch

/-- Calls that are properly nested: each node is left when all is left that was entered since. -/
inductive Nested (t : ParseTree) : List Call → Prop where
  | nil : Nested t []
  | node (id : NodeId) {inner cs : List Call} (h : Nested t inner) (hcs : Nested t cs) :
    Nested t (t.entering id ++ inner ++ t.leaving id ++ cs)
  | terminal (i : Nat) {cs : List Call} (hcs : Nested t cs) : Nested t (.visitTerminal i :: cs)
  | errorNode (i : Nat) {cs : List Call} (hcs : Nested t cs) : Nested t (.visitErrorNode i :: cs)

variable {t : ParseTree} {σ : Type} {listen : σ → Call → σ}

/-! ## What is called -/

section Steps

variable {stack : Array (NodeId × Nat)} {id c : NodeId} {n visited i : Nat} {s : σ}

theorem walkFrom_close (h : (t.node id).children[visited]? = none) :
    t.walkFrom listen (n + 1) (stack.push (id, visited)) s =
      t.walkFrom listen n stack ((t.leaving id).foldl listen s) := by
  simp [walkFrom, h]

theorem walkFrom_node (h : (t.node id).children[visited]? = some (.node c)) :
    t.walkFrom listen (n + 1) (stack.push (id, visited)) s =
      t.walkFrom listen n ((stack.push (id, visited + 1)).push (c, 0))
        ((t.entering c).foldl listen s) := by
  simp [walkFrom, h]

theorem walkFrom_token (h : (t.node id).children[visited]? = some (.token i)) :
    t.walkFrom listen (n + 1) (stack.push (id, visited)) s =
      t.walkFrom listen n (stack.push (id, visited + 1)) (listen s (.visitTerminal i)) := by
  simp [walkFrom, h]

theorem walkFrom_discarded (h : (t.node id).children[visited]? = some (.discarded i)) :
    t.walkFrom listen (n + 1) (stack.push (id, visited)) s =
      t.walkFrom listen n (stack.push (id, visited + 1)) (listen s (.visitErrorNode i)) := by
  simp [walkFrom, h]

theorem walkFrom_empty : t.walkFrom listen n #[] s = s := by
  cases n <;> rfl

end Steps

mutual

/-- The calls for the next child of the innermost node are made. -/
theorem walkFrom_branch (listen : σ → Call → σ) : ∀ (b : Branch) (_ : t.Contains b) (n : Nat)
    (stack : Array (NodeId × Nat)) (id : NodeId) (before behind : List Slot)
    (_ : t.children id = before ++ b.slot :: behind) (s : σ),
    t.walkFrom listen (n + b.steps) (stack.push (id, before.length)) s =
      t.walkFrom listen n (stack.push (id, before.length + 1)) ((b.calls t).foldl listen s)
  | .node c cs, h, n, stack, id, before, behind, hslot, s => by
    have hchildren : t.children c = [] ++ cs.map slot := h.1
    have hall := walkFrom_branches listen cs h.2 (n + 1) (stack.push (id, before.length + 1)) c []
      hchildren ((t.entering c).foldl listen s)
    rw [List.length_nil, Nat.zero_add] at hall
    rw [add_steps_node, walkFrom_node (children_getElem? hslot), hall,
      walkFrom_close (children_getElem?_length h.1), Branch.calls, List.foldl_append,
      List.foldl_append]
  | .token i, _, n, stack, id, before, behind, hslot, s => walkFrom_token (children_getElem? hslot)
  | .discarded i, _, n, stack, id, before, behind, hslot, s =>
    walkFrom_discarded (children_getElem? hslot)

/-- The calls for the last children of the innermost node are made. -/
theorem walkFrom_branches (listen : σ → Call → σ) : ∀ (bs : List Branch) (_ : t.ContainsAll bs)
    (n : Nat) (stack : Array (NodeId × Nat)) (id : NodeId) (before : List Slot)
    (_ : t.children id = before ++ bs.map slot) (s : σ),
    t.walkFrom listen (n + stepsOf bs) (stack.push (id, before.length)) s =
      t.walkFrom listen n (stack.push (id, before.length + bs.length))
        ((callsOf t bs).foldl listen s)
  | [], _, n, stack, id, before, _, s => rfl
  | b :: bs, h, n, stack, id, before, hslots, s => by
    have hrest := walkFrom_branches listen bs h.2 n stack id (before ++ [b.slot])
      (by simpa using hslots) ((b.calls t).foldl listen s)
    rw [List.length_append, List.length_singleton] at hrest
    rw [add_stepsOf_cons, walkFrom_branch listen b h.1 _ stack id before _ hslots, hrest, callsOf,
      List.foldl_append, List.length_cons, Nat.add_assoc, Nat.add_comm 1]

end

variable {id : NodeId} {children : List Branch}

/-- **A walk makes the calls of the branch**, whoever listens. -/
theorem walkNode_eq (h : t.Contains (.node id children))
    (hn : (Branch.node id children).steps ≤ t.walkLength) (listen : σ → Call → σ) (s : σ) :
    t.walkNode listen s id = ((Branch.node id children).calls t).foldl listen s := by
  obtain ⟨n, hsteps⟩ := exists_eq_of_steps_le hn
  have hall := walkFrom_branches listen children h.2 (n + 1 + 1) #[] id [] h.1
    ((t.entering id).foldl listen s)
  simp only [List.length_nil, Nat.zero_add] at hall
  show t.walkFrom listen t.walkLength (Array.push #[] (id, 0)) _ = _
  rw [hsteps, hall, walkFrom_close (children_getElem?_length h.1), walkFrom_empty, Branch.calls,
    List.foldl_append, List.foldl_append]

/-- The calls that are recorded are those of the branch. -/
theorem calls_eq (h : t.Contains (.node id children))
    (hn : (Branch.node id children).steps ≤ t.walkLength) :
    t.calls id = (Branch.node id children).calls t := by
  rw [calls, walkNode_eq h hn]
  simp

/-- What is kept of a walk is kept of its calls. -/
theorem events_eq (h : t.Contains (.node id children))
    (hn : (Branch.node id children).steps ≤ t.walkLength) :
    t.events id = (t.calls id).map t.event := by
  rw [events, walkNode_eq h hn, calls_eq h hn]
  simp

end ParseTree

/-! ## The calls of a branch -/

namespace Branch

variable {t : ParseTree}

mutual

/-- **The calls of a branch are properly nested.** -/
theorem nested_calls : ∀ (b : Branch) {cs : List Call}, t.Nested cs → t.Nested (b.calls t ++ cs)
  | .node id children, _, hcs => by
    have hinner := nested_callsOf children .nil
    rw [List.append_nil] at hinner
    exact .node id hinner hcs
  | .token i, _, hcs => .terminal i hcs
  | .discarded i, _, hcs => .errorNode i hcs

theorem nested_callsOf : ∀ (bs : List Branch) {cs : List Call}, t.Nested cs →
    t.Nested (callsOf t bs ++ cs)
  | [], _, hcs => hcs
  | b :: bs, _, hcs => by
    rw [callsOf, List.append_assoc]
    exact nested_calls b (nested_callsOf bs hcs)

end

/-- The calls that enter and leave a node. -/
theorem mem_entering_leaving {i : NodeId} {c : Call} : c ∈ t.entering i ++ t.leaving i ↔
    c = .enterEveryRule i ∨ c = .enter (t.label i) i ∨ c = .exit (t.label i) i ∨
      c = .exitEveryRule i := by
  simp [ParseTree.entering, ParseTree.leaving]

/-- A node is entered and left once for itself. -/
theorem count_entering_leaving {i : NodeId} {c : Call} (hc : c ∈ t.entering i ++ t.leaving i)
    (id : NodeId) : (t.entering id ++ t.leaving id).count c = [id].count i := by
  rw [ParseTree.entering, ParseTree.leaving]
  by_cases hid : id = i
  · subst hid
    rcases mem_entering_leaving.mp hc with rfl | rfl | rfl | rfl <;> simp
  · rcases mem_entering_leaving.mp hc with rfl | rfl | rfl | rfl <;> simp [hid]

mutual

/-- **A node is entered and left as often as it stands in the branch.** -/
theorem count_calls {i : NodeId} {c : Call} (hc : c ∈ t.entering i ++ t.leaving i) :
    ∀ b : Branch, (b.calls t).count c = b.preorder.count i
  | .node id children => by
    have hnode := count_entering_leaving hc id
    have hall := count_callsOf hc children
    rw [List.count_append, List.count_singleton] at hnode
    simp only [calls, preorder, List.count_append, List.count_cons]
    omega
  | .token j | .discarded j => by
    rcases mem_entering_leaving.mp hc with rfl | rfl | rfl | rfl <;> rfl

theorem count_callsOf {i : NodeId} {c : Call} (hc : c ∈ t.entering i ++ t.leaving i) :
    ∀ bs : List Branch, (callsOf t bs).count c = (preorderOf bs).count i
  | [] => rfl
  | b :: bs => by
    rw [callsOf, preorderOf, List.count_append, List.count_append, count_calls hc b,
      count_callsOf hc bs]

end

mutual

/-- The nodes are entered in the order of the branch. -/
theorem entered_calls : ∀ b : Branch, (b.calls t).filterMap Call.entered? = b.preorder
  | .node id children => by
    simp [calls, preorder, ParseTree.entering, ParseTree.leaving, List.filterMap_cons,
      Call.entered?, entered_callsOf children]
  | .token i | .discarded i => rfl

theorem entered_callsOf : ∀ bs : List Branch,
    (callsOf t bs).filterMap Call.entered? = preorderOf bs
  | [] => rfl
  | b :: bs => by
    rw [callsOf, preorderOf, List.filterMap_append, entered_calls b, entered_callsOf bs]

end

mutual

/-- The tokens are visited in the order of the branch. -/
theorem leaf_calls : ∀ b : Branch, (b.calls t).filterMap Call.leaf? = b.leafIndices
  | .node id children => by
    simp [calls, leafIndices, ParseTree.entering, ParseTree.leaving, List.filterMap_cons,
      Call.leaf?, leaf_callsOf children]
  | .token i | .discarded i => rfl

theorem leaf_callsOf : ∀ bs : List Branch,
    (callsOf t bs).filterMap Call.leaf? = leafIndicesOf bs
  | [] => rfl
  | b :: bs => by
    rw [callsOf, leafIndicesOf, List.filterMap_append, leaf_calls b, leaf_callsOf bs]

end

end Branch

end PipeQuery

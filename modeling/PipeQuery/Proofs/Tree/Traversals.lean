import PipeQuery.Proofs.Parser.OneTree
import PipeQuery.Proofs.Tree.Listener
import PipeQuery.Tree.Text

/-!
# Loops and recursion

Everything that is found, written and called along a tree is done with loops that keep a stack of
their own. They do what recursion on the nested tree does: those that put the children of a node on
the stack in reverse, those that keep with each open node how many of its children are done, and the
one that keeps with everything how deep it stands.

## Main definitions

* `ParseTree.Traversed`: the loops that start at a node, and recursion on its branch

## Main results

* `ParseTree.lispOf_eq`, `ParseTree.outline_eq`: the written forms are those of the branch
* `Branch.linesOf_calls`: the outline has a line for everything that the calls come to
* `traversals_eq`: the loops compute the recursion, for every node of every tree
-/

namespace PipeQuery

open Token (Kind)

namespace ParseTree

open Branch

variable {t : ParseTree}

/-! ## Nested parentheses -/

section Steps

variable {stack : Array (NodeId × Nat)} {id c : NodeId} {n written i : Nat} {out : String}

theorem lispFrom_close (h : (t.node id).children[written]? = none) :
    t.lispFrom (n + 1) (stack.push (id, written)) out = t.lispFrom n stack (out ++ ")") := by
  simp [lispFrom, h]

theorem lispFrom_node (h : (t.node id).children[written]? = some (.node c)) :
    t.lispFrom (n + 1) (stack.push (id, written)) out =
      t.lispFrom n (t.openLisp c (stack.push (id, written + 1)) (out ++ " ")).1
        (t.openLisp c (stack.push (id, written + 1)) (out ++ " ")).2 := by
  simp [lispFrom, h]

theorem lispFrom_token (h : (t.node id).children[written]? = some (.token i)) :
    t.lispFrom (n + 1) (stack.push (id, written)) out =
      t.lispFrom n (stack.push (id, written + 1)) (out ++ " " ++ (t.token i).text) := by
  simp [lispFrom, h]

theorem lispFrom_discarded (h : (t.node id).children[written]? = some (.discarded i)) :
    t.lispFrom (n + 1) (stack.push (id, written)) out =
      t.lispFrom n (stack.push (id, written + 1)) (out ++ " " ++ (t.token i).text) := by
  simp [lispFrom, h]

theorem lispFrom_empty : t.lispFrom n #[] out = out := by
  cases n <;> rfl

/-- A node without children is not put on the stack. -/
theorem openLisp_nil (h : t.children id = []) :
    t.openLisp id stack out = (stack, out ++ (t.rule id).name) := by
  rw [openLisp, if_pos]
  rw [Array.isEmpty_iff, ← Array.toList_eq_nil_iff]
  exact h

theorem openLisp_cons {slot : Slot} {slots : List Slot} (h : t.children id = slot :: slots) :
    t.openLisp id stack out = (stack.push (id, 0), out ++ "(" ++ (t.rule id).name) := by
  rw [openLisp, if_neg]
  rw [Array.isEmpty_iff, ← Array.toList_eq_nil_iff]
  intro hnil
  cases h.symm.trans hnil

end Steps

mutual

/-- The next child of the innermost open node is written. A node without children takes fewer
steps than others, so some may be left over. -/
theorem lispFrom_branch : ∀ (b : Branch) (_ : t.Contains b) (n : Nat)
    (stack : Array (NodeId × Nat)) (id : NodeId) (before behind : List Slot)
    (_ : t.children id = before ++ b.slot :: behind) (out : String),
    ∃ m, n ≤ m ∧ t.lispFrom (n + b.steps) (stack.push (id, before.length)) out =
      t.lispFrom m (stack.push (id, before.length + 1)) (out ++ " " ++ b.lisp t)
  | .node c [], h, n, stack, id, before, behind, hslot, out => by
    refine ⟨n + 1, Nat.le_succ n, ?_⟩
    rw [steps, stepsOf, lispFrom_node (children_getElem? hslot), openLisp_nil h.1, Branch.lisp]
  | .node c (b :: bs), h, n, stack, id, before, behind, hslot, out => by
    have hchildren : t.children c = [] ++ (b :: bs).map slot := h.1
    obtain ⟨m, hm, hall⟩ := lispFrom_branches (b :: bs) h.2 (n + 1)
      (stack.push (id, before.length + 1)) c [] hchildren (out ++ " " ++ "(" ++ (t.rule c).name)
    obtain ⟨m, rfl⟩ := Nat.exists_eq_add_of_le' (Nat.le_trans (Nat.le_add_left 1 n) hm)
    refine ⟨m, Nat.le_of_add_le_add_right hm, ?_⟩
    rw [List.length_nil, Nat.zero_add] at hall
    rw [add_steps_node, lispFrom_node (children_getElem? hslot), openLisp_cons h.1, hall,
      lispFrom_close (children_getElem?_length h.1), Branch.lisp]
    simp only [String.append_assoc]
  | .token i, _, n, stack, id, before, behind, hslot, out =>
    ⟨n, Nat.le_refl n, lispFrom_token (children_getElem? hslot)⟩
  | .discarded i, _, n, stack, id, before, behind, hslot, out =>
    ⟨n, Nat.le_refl n, lispFrom_discarded (children_getElem? hslot)⟩

/-- The last children of the innermost open node are written. -/
theorem lispFrom_branches : ∀ (bs : List Branch) (_ : t.ContainsAll bs) (n : Nat)
    (stack : Array (NodeId × Nat)) (id : NodeId) (before : List Slot)
    (_ : t.children id = before ++ bs.map slot) (out : String),
    ∃ m, n ≤ m ∧ t.lispFrom (n + stepsOf bs) (stack.push (id, before.length)) out =
      t.lispFrom m (stack.push (id, before.length + bs.length)) (out ++ lispTail t bs)
  | [], _, n, stack, id, before, _, out => ⟨n, Nat.le_refl n, by simp [stepsOf, lispTail]⟩
  | b :: bs, h, n, stack, id, before, hslots, out => by
    obtain ⟨m, hm, hfirst⟩ := lispFrom_branch b h.1 (n + stepsOf bs) stack id before _ hslots out
    obtain ⟨k, rfl⟩ := Nat.exists_eq_add_of_le' hm
    obtain ⟨m, hm, hrest⟩ := lispFrom_branches bs h.2 (k + n) stack id (before ++ [b.slot])
      (by simpa using hslots) (out ++ " " ++ b.lisp t)
    refine ⟨m, Nat.le_trans (Nat.le_add_left n k) hm, ?_⟩
    rw [List.length_append, List.length_singleton] at hrest
    rw [add_stepsOf_cons, hfirst, ← Nat.add_assoc, hrest, lispTail, List.length_cons, Nat.add_assoc,
      Nat.add_comm 1]
    simp only [String.append_assoc]

end

variable {id : NodeId} {children : List Branch}

/-- **The form in nested parentheses** is that of the branch. -/
theorem lispOf_eq (h : t.Contains (.node id children))
    (hn : (Branch.node id children).steps ≤ t.walkLength) :
    t.lispOf id = (Branch.node id children).lisp t := by
  cases children with
  | nil =>
    rw [lispOf, openLisp_nil h.1, Branch.lisp, String.empty_append]
    exact lispFrom_empty
  | cons b bs =>
    obtain ⟨n, hsteps⟩ := exists_eq_of_steps_le hn
    obtain ⟨m, hm, hall⟩ := lispFrom_branches (b :: bs) h.2 (n + 1 + 1) #[] id [] h.1
      ("" ++ "(" ++ (t.rule id).name)
    obtain ⟨m, rfl⟩ := Nat.exists_eq_add_of_le' (Nat.le_trans (Nat.le_add_left 1 (n + 1)) hm)
    rw [List.length_nil, Nat.zero_add] at hall
    rw [lispOf, openLisp_cons h.1, hsteps]
    show t.lispFrom _ (Array.push #[] (id, 0)) _ = _
    rw [hall, lispFrom_close (children_getElem?_length h.1), lispFrom_empty,
      Branch.lisp, String.empty_append]

/-! ## Outline -/

theorem outlineFrom_node (t : ParseTree) (n : Nat) (id : NodeId) (depth : Nat)
    (pending : List (Slot × Nat)) (out : String) :
    t.outlineFrom (n + 1) (stackOf ((.node id, depth) :: pending)) out =
      t.outlineFrom n (stackOf ((t.children id).map (·, depth + 1) ++ pending))
        (out ++ (indentation depth ++ t.nodeLine id)) := by
  simp only [outlineFrom, back?_stackOf, pop_stackOf, stackOf_append, slotLine]

theorem outlineFrom_token (t : ParseTree) (n i depth : Nat) (pending : List (Slot × Nat))
    (out : String) :
    t.outlineFrom (n + 1) (stackOf ((.token i, depth) :: pending)) out =
      t.outlineFrom n (stackOf pending) (out ++ (indentation depth ++ t.leafLine i false)) := by
  simp only [outlineFrom, back?_stackOf, pop_stackOf, slotLine]

theorem outlineFrom_discarded (t : ParseTree) (n i depth : Nat) (pending : List (Slot × Nat))
    (out : String) :
    t.outlineFrom (n + 1) (stackOf ((.discarded i, depth) :: pending)) out =
      t.outlineFrom n (stackOf pending) (out ++ (indentation depth ++ t.leafLine i true)) := by
  simp only [outlineFrom, back?_stackOf, pop_stackOf, slotLine]

theorem outlineFrom_nil (t : ParseTree) (n : Nat) (out : String) :
    t.outlineFrom n (stackOf []) out = out := by
  cases n <;> rfl

mutual

/-- The lines of a branch are written before those that are pending. -/
theorem outlineFrom_branch : ∀ (b : Branch) (_ : t.Contains b) (n depth : Nat)
    (pending : List (Slot × Nat)) (out : String),
    t.outlineFrom (n + b.extent) (stackOf ((b.slot, depth) :: pending)) out =
      t.outlineFrom n (stackOf pending) (out ++ b.outline t depth)
  | .node id children, h, n, depth, pending, out => by
    have hall := outlineFrom_branches children h.2 n (depth + 1) pending
      (out ++ (indentation depth ++ t.nodeLine id))
    rw [extent, ← Nat.add_assoc, slot, outlineFrom_node, h.1, List.map_map]
    refine hall.trans ?_
    rw [Branch.outline]
    simp only [String.append_assoc]
  | .token i, _, n, depth, pending, out => outlineFrom_token t n i depth pending out
  | .discarded i, _, n, depth, pending, out => outlineFrom_discarded t n i depth pending out

theorem outlineFrom_branches : ∀ (bs : List Branch) (_ : t.ContainsAll bs) (n depth : Nat)
    (pending : List (Slot × Nat)) (out : String),
    t.outlineFrom (n + extentOf bs) (stackOf (bs.map (fun b => (b.slot, depth)) ++ pending)) out =
      t.outlineFrom n (stackOf pending) (out ++ outlineOf t depth bs)
  | [], _, n, depth, pending, out => by simp [extentOf, outlineOf]
  | b :: bs, h, n, depth, pending, out => by
    rw [extentOf, Nat.add_comm b.extent, ← Nat.add_assoc, List.map_cons, List.cons_append,
      outlineFrom_branch b h.1, outlineFrom_branches bs h.2, outlineOf, String.append_assoc]

end

/-- **The outline** is that of the branch of the root. -/
theorem outline_eq (h : t.Contains (.node t.root children))
    (hn : (Branch.node t.root children).steps ≤ t.walkLength) :
    t.outline = (Branch.node t.root children).outline t 0 := by
  obtain ⟨n, hn⟩ := Nat.exists_eq_add_of_le' (Nat.le_trans (extent_le_steps _) hn)
  have hloop := outlineFrom_branch _ h n 0 [] ""
  rw [outlineFrom_nil, ← hn, String.empty_append] at hloop
  exact hloop

end ParseTree

/-! ## Lines and calls -/

namespace ParseTree

/-- The lines of what calls come to. -/
def linesOf (t : ParseTree) (depth : Nat) (cs : List Call) : String :=
  String.join ((Call.depths depth cs).map fun (slot, depth) => indentation depth ++ t.slotLine slot)

theorem linesOf_entering (t : ParseTree) (depth : Nat) (id : NodeId) (cs : List Call) :
    t.linesOf depth (t.entering id ++ cs) =
      indentation depth ++ t.nodeLine id ++ t.linesOf (depth + 1) cs := by
  simp [linesOf, entering, Call.depths, slotLine]

theorem linesOf_leaving (t : ParseTree) (depth : Nat) (id : NodeId) (cs : List Call) :
    t.linesOf (depth + 1) (t.leaving id ++ cs) = t.linesOf depth cs := rfl

end ParseTree

namespace Branch

variable {t : ParseTree}

mutual

/-- **The outline of a branch** has a line for everything that its calls come to. -/
theorem linesOf_calls : ∀ (b : Branch) (depth : Nat) (cs : List Call),
    t.linesOf depth (b.calls t ++ cs) = b.outline t depth ++ t.linesOf depth cs
  | .node id children, depth, cs => by
    have hall := linesOf_callsOf children (depth + 1) (t.leaving id ++ cs)
    rw [t.linesOf_leaving] at hall
    rw [calls, List.append_assoc, List.append_assoc, t.linesOf_entering, hall, outline]
    simp only [String.append_assoc]
  | .token i, depth, cs | .discarded i, depth, cs => by
    simp [calls, ParseTree.linesOf, Call.depths, outline, ParseTree.slotLine]

theorem linesOf_callsOf : ∀ (bs : List Branch) (depth : Nat) (cs : List Call),
    t.linesOf depth (callsOf t bs ++ cs) = outlineOf t depth bs ++ t.linesOf depth cs
  | [], depth, cs => by simp [callsOf, outlineOf]
  | b :: bs, depth, cs => by
    rw [callsOf, outlineOf, List.append_assoc, linesOf_calls b, linesOf_callsOf bs,
      String.append_assoc]

end

end Branch

/-! ## All loops -/

namespace ParseTree

/-- The branch below a slot. -/
def below (t : ParseTree) : Slot → Branch
  | .node id => t.branch id
  | .token i => .token i
  | .discarded i => .discarded i

/-- The loops that start at a node compute what recursion on its branch does. -/
structure Traversed (t : ParseTree) (id : NodeId) : Prop where
  /-- The branch is made of the branches below the slots of the node. -/
  branch_eq : t.branch id = .node id ((t.children id).map t.below)
  leafIndices_eq : t.leafIndices id = (t.branch id).leafIndices
  preorder_eq : t.preorder id = (t.branch id).preorder
  lispOf_eq : t.lispOf id = (t.branch id).lisp t
  /-- A listener hears the calls of the branch. -/
  walkNode_eq : ∀ (σ : Type) (listen : σ → Call → σ) (s : σ),
    t.walkNode listen s id = ((t.branch id).calls t).foldl listen s
  calls_eq : t.calls id = (t.branch id).calls t
  events_eq : t.events id = (t.calls id).map t.event
  nested : t.Nested (t.calls id)
  nodup : (t.preorder id).Nodup
  /-- A node of the subtree is entered once and left once, and no other node is. -/
  count_eq : ∀ i, ∀ c ∈ t.entering i ++ t.leaving i,
    (t.calls id).count c = (t.preorder id).count i
  entered_eq : (t.calls id).filterMap Call.entered? = t.preorder id
  leaves_eq : (t.calls id).filterMap Call.leaf? = t.leafIndices id

open Branch

variable {t : ParseTree} {x y : Subtree} {b : Branch} {id : NodeId} {l : Label} {span : TokenSpan}
  {e : Option SyntaxError} {children : List Subtree}

theorem below_slot (h : t.Contains b) (hn : b.height ≤ t.size) : t.below b.slot = b := by
  cases b with
  | node c cs => exact branchTo_eq t.size c cs h hn
  | token i | discarded i => rfl

theorem map_below {bs : List Branch} (h : t.ContainsAll bs) (hn : heightOf bs ≤ t.size) :
    (bs.map slot).map t.below = bs := by
  induction bs with
  | nil => rfl
  | cons b bs ih =>
    rw [heightOf, Nat.max_le] at hn
    rw [List.map_cons, List.map_cons, below_slot h.1 hn.1, ih h.2 hn.2]

/-- The loops compute the recursion at each node of a tree. -/
theorem IsWhole.traversed (h : t.IsWhole x) (hy : Subtree.node id l span e children ∈ x.nodes) :
    t.Traversed id := by
  have hcontains := (h.holds.of_mem_nodes hy).contains
  have hsteps := h.steps_le_of_mem hy
  have hbranch := h.branch_eq hy
  have hcalls := ParseTree.calls_eq hcontains hsteps
  have hpreorder := h.preorder_eq hy
  -- Each loop has steps enough for the whole tree, so also for the branch of a node.
  constructor
  case branch_eq =>
    have hheight := h.height_le hy
    rw [Subtree.branch, height] at hheight
    rw [hbranch, Subtree.branch, hcontains.1,
      map_below hcontains.2 (Nat.le_trans (Nat.le_succ _) hheight)]
  case leafIndices_eq => rw [hbranch, h.leafIndices_eq hy]
  case preorder_eq => rw [hbranch, hpreorder]
  case lispOf_eq => rw [hbranch, ParseTree.lispOf_eq hcontains hsteps, Subtree.branch]
  case walkNode_eq =>
    intro σ listen s
    rw [hbranch, ParseTree.walkNode_eq hcontains hsteps, Subtree.branch]
  case calls_eq => rw [hbranch, hcalls, Subtree.branch]
  case events_eq => exact ParseTree.events_eq hcontains hsteps
  case nested =>
    rw [hcalls, ← List.append_nil (Branch.calls ..)]
    exact Branch.nested_calls _ .nil
  case nodup =>
    rw [hpreorder]
    exact (h.perm.nodup_iff.mpr List.nodup_range).sublist (Subtree.sublist_of_mem_nodes x hy).1
  case count_eq =>
    intro i c hc
    rw [hcalls, hpreorder]
    exact Branch.count_calls hc _
  case entered_eq =>
    rw [hcalls, hpreorder]
    exact Branch.entered_calls _
  case leaves_eq =>
    rw [hcalls, h.leafIndices_eq hy]
    exact Branch.leaf_calls _

end ParseTree

/-- **The loops compute the recursion**, for every node of every tree. The tokens and nodes that are
found below a node and its form in nested parentheses are those that recursion on the slots of the
nodes gives, and a listener of a walk hears the calls that recursion makes. So calls are properly
nested, each node of the subtree is entered and left once, the nodes are entered in the order in
which they are found, and so are the tokens visited. The outline has a line for everything that the
walk comes to, indented by the nodes that are entered and not yet left. -/
theorem traversals_eq {options : Options} {entry : Entry} {tokens : List Token} {t : ParseTree}
    (h : entry.parse options tokens = .ok t) :
    (∀ id < t.size, t.Traversed id) ∧
      t.outline = (t.branch t.root).outline t 0 ∧ t.outline = t.linesOf 0 (t.calls t.root) := by
  obtain ⟨x, hx, -⟩ := Parser.parse_leafIndices entry h
  have hmem := hx.root_mem
  obtain ⟨l, span, e, children, rfl⟩ := hx.exists_root
  have htraversed (id : NodeId) (hid : id < t.size) : t.Traversed id := by
    obtain ⟨l, span, e, children, hy⟩ := hx.exists_mem_nodes hid
    exact hx.traversed hy
  have houtline : t.outline = (t.branch t.root).outline t 0 := by
    rw [hx.branch_eq hmem]
    exact ParseTree.outline_eq hx.holds.contains hx.steps_le
  refine ⟨htraversed, houtline, ?_⟩
  -- The lines of the walk follow from its calls, and the calls from the branch.
  have hlines := Branch.linesOf_calls (t := t) (t.branch t.root) 0 []
  rw [List.append_nil] at hlines
  rw [houtline, (hx.traversed hmem).calls_eq, hlines]
  exact (String.append_empty ..).symm

/-- The tree of the expression `a or ) b`, with an error and two tokens that are dropped. -/
theorem traversals_eq_orOperand :
    ∃ t, Entry.parse ⟨20, .recover⟩ ([Kind.name, .orWord, .rightParen, .name].map Token.ofKind)
        (.expression 0) = .ok t ∧ t.isValid = false ∧ (0 < t.size ∧ t.Traversed 0) ∧
      t.outline = (t.branch t.root).outline t 0 ∧ t.outline = t.linesOf 0 (t.calls t.root) := by
  obtain ⟨t, h, hvalid, hsize⟩ : ∃ t, Entry.parse ⟨20, .recover⟩
      ([Kind.name, .orWord, .rightParen, .name].map Token.ofKind) (.expression 0) = .ok t ∧
        t.isValid = false ∧ 0 < t.size := by
    decide +kernel
  obtain ⟨hnodes, houtline⟩ := traversals_eq h
  exact ⟨t, h, hvalid, ⟨hsize, hnodes 0 hsize⟩, houtline⟩

end PipeQuery

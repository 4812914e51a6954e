import PipeQuery.Proofs.Tree.Path

/-!
# The processing commands of a tree

A pipeline is a row of commands, and its tree has one subtree for each of them. What a command is
parsed as does not depend on what stands before it, apart from the places: its nodes come behind
other nodes in the arena, and its tokens behind other tokens. So subtrees are compared after their
places have been moved.

## Main definitions

* `Subtree.shift`: a subtree with its nodes and tokens moved
* `Subtree.commands`, `Subtree.commandsFrom`: the outermost processing commands
* `Subtree.DropsBefore`: a subtree that drops tokens only before some place
* `ParseTree.subtree`, `ParseTree.commandsFrom`: the subtree of a node, and the commands of a tree

## Main results

* `Subtree.Tiles.commandsFrom_eq_nil`: what ends before a place has no commands behind it
* `ParseTree.IsWhole.subtree_root`: the subtree of the root is the whole
* `ParseTree.IsWhole.lt_of_discarded`: where the dropped tokens of a tree are
-/

namespace PipeQuery

/-- The span `n` tokens further on. -/
def TokenSpan.shift (n : Nat) (s : TokenSpan) : TokenSpan := ⟨s.start + n, s.stop + n⟩

/-- The error `n` tokens further on. -/
def SyntaxError.shift (n : Nat) (e : SyntaxError) : SyntaxError := { e with index := e.index + n }

namespace Subtree

mutual

/-- The subtree with its nodes `k` places and its tokens `n` places further on. -/
def shift (k n : Nat) : Subtree → Subtree
  | node id label span error children =>
    node (id + k) label (span.shift n) (error.map (SyntaxError.shift n)) (shiftAll k n children)
  | token i => token (i + n)
  | discarded i => discarded (i + n)

/-- Subtrees side by side, moved. -/
def shiftAll (k n : Nat) : List Subtree → List Subtree
  | [] => []
  | x :: xs => shift k n x :: shiftAll k n xs

end

mutual

/-- The processing commands of a subtree that stand in no other one. -/
def commands : Subtree → List Subtree
  | node id label span error children =>
    if label.rule = .processingCommand then [node id label span error children]
    else commandsOf children
  | token _ | discarded _ => []

/-- The processing commands of subtrees side by side. -/
def commandsOf : List Subtree → List Subtree
  | [] => []
  | x :: xs => commands x ++ commandsOf xs

end

/-- The token at which a subtree starts. -/
def start : Subtree → Nat
  | node _ _ span _ _ => span.start
  | token i | discarded i => i

/-- The outermost processing commands that start at the token `n` or behind it. -/
def commandsFrom (n : Nat) (x : Subtree) : List Subtree := x.commands.filter (n ≤ ·.start)

mutual

/-- No token at the place `n` or behind it is dropped. -/
def DropsBefore (n : Nat) : Subtree → Prop
  | node _ _ _ _ children => AllDropBefore n children
  | token _ => True
  | discarded i => i < n

/-- No token at the place `n` or behind it is dropped in subtrees side by side. -/
def AllDropBefore (n : Nat) : List Subtree → Prop
  | [] => True
  | x :: xs => DropsBefore n x ∧ AllDropBefore n xs

end

variable {x y : Subtree} {xs ys : List Subtree} {i j k n : Nat}

/-! ## Subtrees that are moved -/

theorem shiftAll_append (k n : Nat) (xs ys : List Subtree) :
    shiftAll k n (xs ++ ys) = shiftAll k n xs ++ shiftAll k n ys := by
  induction xs with
  | nil => rfl
  | cons x xs ih => rw [List.cons_append, shiftAll, shiftAll, ih, List.cons_append]

mutual

@[simp]
theorem shift_zero : ∀ x : Subtree, x.shift 0 0 = x
  | node id label span error children => by
    have herror : error.map (SyntaxError.shift 0) = error := by cases error <;> rfl
    rw [shift, shiftAll_zero children, herror]
    rfl
  | token i | discarded i => rfl

@[simp]
theorem shiftAll_zero : ∀ xs : List Subtree, shiftAll 0 0 xs = xs
  | [] => rfl
  | x :: xs => by rw [shiftAll, shift_zero x, shiftAll_zero xs]

end

/-! ## Commands -/

theorem commandsOf_append (xs ys : List Subtree) :
    commandsOf (xs ++ ys) = commandsOf xs ++ commandsOf ys := by
  induction xs with
  | nil => rfl
  | cons x xs ih => rw [List.cons_append, commandsOf, commandsOf, ih, List.append_assoc]

mutual

/-- A command is the subtree of a node. -/
theorem commands_subset : ∀ x : Subtree, commands x ⊆ nodes x
  | node id label span error children => by
    rw [commands, nodes]
    split
    · intro y hy
      rw [List.mem_singleton.mp hy]
      exact List.mem_cons_self
    · intro y hy
      exact List.mem_cons_of_mem _ (commandsOf_subset children hy)
  | token _ | discarded _ => by simp [commands]

theorem commandsOf_subset : ∀ xs : List Subtree, commandsOf xs ⊆ nodesOf xs
  | [] => by simp [commandsOf]
  | x :: xs => by
    rw [commandsOf, nodesOf]
    intro y hy
    rcases List.mem_append.mp hy with hy | hy
    · exact List.mem_append_left _ (commands_subset x hy)
    · exact List.mem_append_right _ (commandsOf_subset xs hy)

end

/-- A subtree starts where its leaves do. -/
theorem Tiles.start_eq (h : Tiles x i j) : x.start = i := by
  cases x with
  | node id label span error children =>
    rw [start, h.1]
  | token k | discarded k => exact h.1

/-- **What ends before a place has no commands behind it.** -/
theorem Tiles.commandsFrom_eq_nil (h : Tiles x i j) (hn : j < n) : x.commandsFrom n = [] := by
  rw [commandsFrom, List.filter_eq_nil_iff]
  intro y hy
  obtain ⟨i', j', -, hj, htiles⟩ := h.of_mem_nodes (commands_subset x hy)
  have hle := htiles.le
  rw [htiles.start_eq, decide_eq_true_eq]
  omega

/-! ## Dropped tokens -/

theorem allDropBefore_append :
    AllDropBefore n (xs ++ ys) ↔ AllDropBefore n xs ∧ AllDropBefore n ys := by
  induction xs with
  | nil => simp [AllDropBefore]
  | cons x xs ih => rw [List.cons_append, AllDropBefore, AllDropBefore, ih, and_assoc]

mutual

/-- A subtree without errors drops nothing. -/
theorem Intact.dropsBefore : ∀ {x : Subtree}, Intact x → DropsBefore n x
  | node .., h => AllIntact.allDropBefore h.2
  | token _, _ => trivial
  | discarded _, h => h.elim

theorem AllIntact.allDropBefore : ∀ {xs : List Subtree}, AllIntact xs → AllDropBefore n xs
  | [], _ => trivial
  | _ :: _, h => ⟨Intact.dropsBefore h.1, AllIntact.allDropBefore h.2⟩

end

mutual

theorem DropsBefore.mono (h : i ≤ j) : ∀ {x : Subtree}, DropsBefore i x → DropsBefore j x
  | node .., hx => AllDropBefore.mono h hx
  | token _, _ => trivial
  | discarded _, hx => Nat.lt_of_lt_of_le hx h

theorem AllDropBefore.mono (h : i ≤ j) :
    ∀ {xs : List Subtree}, AllDropBefore i xs → AllDropBefore j xs
  | [], _ => trivial
  | _ :: _, hxs => ⟨hxs.1.mono h, AllDropBefore.mono h hxs.2⟩

end

mutual

/-- What ends before a place drops nothing behind it. -/
theorem Tiles.dropsBefore {i j : Nat} : ∀ {x : Subtree}, Tiles x i j → DropsBefore j x
  | node .., h => AllTile.allDropBefore h.2
  | token _, _ => trivial
  | discarded k, h => by
    obtain ⟨rfl, rfl⟩ := h
    exact Nat.lt_succ_self k

theorem AllTile.allDropBefore {i j : Nat} : ∀ {xs : List Subtree}, AllTile xs i j →
    AllDropBefore j xs
  | [], _ => trivial
  | _ :: _, h => by
    obtain ⟨k, hx, hxs⟩ := h
    exact ⟨hx.dropsBefore.mono hxs.le, hxs.allDropBefore⟩

end

mutual

theorem DropsBefore.of_mem_nodes : ∀ {x : Subtree}, DropsBefore n x → y ∈ nodes x →
    DropsBefore n y
  | node .., h, hy => by
    rw [nodes, List.mem_cons] at hy
    rcases hy with rfl | hy
    · exact h
    · exact AllDropBefore.of_mem_nodesOf h hy
  | token _, _, hy | discarded _, _, hy => by simp [nodes] at hy

theorem AllDropBefore.of_mem_nodesOf : ∀ {xs : List Subtree}, AllDropBefore n xs →
    y ∈ nodesOf xs → DropsBefore n y
  | [], _, hy => by simp [nodesOf] at hy
  | x :: xs, h, hy => by
    rw [nodesOf, List.mem_append] at hy
    rcases hy with hy | hy
    · exact h.1.of_mem_nodes hy
    · exact h.2.of_mem_nodesOf hy

end

theorem AllDropBefore.lt_of_mem (h : AllDropBefore n xs) (hi : .discarded i ∈ xs) : i < n := by
  induction xs with
  | nil => cases hi
  | cons x xs ih =>
    rcases List.mem_cons.mp hi with rfl | hi
    · exact h.1
    · exact ih h.2 hi

end Subtree

/-! ## Open nodes -/

namespace Site

/-- The open node with its nodes `k` places and its tokens `n` places further on. -/
def shift (k n : Nat) (x : Site) : Site :=
  ⟨x.id + k, x.label, x.span.shift n, x.error.map (SyntaxError.shift n),
    Subtree.shiftAll k n x.children⟩

theorem shift_subtree (k n : Nat) (x : Site) : (x.shift k n).subtree = x.subtree.shift k n := rfl

/-- An open node is known by what it is moved to. -/
theorem subtree_eq_of_shift {x y : Site} (h : y.shift 0 0 = x.shift 0 0) :
    y.subtree = x.subtree := by
  have hsubtree : (y.shift 0 0).subtree = (x.shift 0 0).subtree := congrArg subtree h
  rwa [shift_subtree, shift_subtree, Subtree.shift_zero, Subtree.shift_zero] at hsubtree

/-- It does not matter to the commands behind a place where a node that starts before it ends. -/
theorem commandsFrom_close {x : Site} {n : Nat} (h : x.span.start < n) (stop : Nat) :
    (x.close stop).subtree.commandsFrom n = x.subtree.commandsFrom n := by
  rw [Subtree.commandsFrom, Subtree.commandsFrom, subtree, subtree, Subtree.commands,
    Subtree.commands]
  by_cases hlabel : x.label.rule = .processingCommand
  · have hlt : ¬ n ≤ x.span.start := Nat.not_le_of_lt h
    simp [close, hlabel, Subtree.start, hlt]
  · simp [close, hlabel]

variable {x : Site} {n : Nat} {label : Label}

/-- The commands behind a place, once the node they stand in is wrapped. -/
theorem commandsFrom_wrap (h : x.span.start < n) (hlabel : label.rule ≠ .processingCommand)
    (id : NodeId) (stop : Nat) :
    (x.wrap id label stop).subtree.commandsFrom n = x.subtree.commandsFrom n := by
  rw [← commandsFrom_close h stop]
  simp [Subtree.commandsFrom, subtree, wrap, Subtree.commands, Subtree.commandsOf, hlabel]

/-- The commands behind a place, with those of one more child. -/
theorem commandsFrom_add (hlabel : x.label.rule ≠ .processingCommand) (c : Subtree) :
    (x.add c).subtree.commandsFrom n = x.subtree.commandsFrom n ++ c.commandsFrom n := by
  simp [Subtree.commandsFrom, subtree, add, Subtree.commands, hlabel, Subtree.commandsOf_append,
    Subtree.commandsOf]

/-- A command behind a place. -/
theorem commandsFrom_command (hlabel : x.label.rule = .processingCommand) (h : n ≤ x.span.start) :
    x.subtree.commandsFrom n = [x.subtree] := by
  simp [Subtree.commandsFrom, subtree, Subtree.commands, Subtree.start, hlabel, h]

end Site

/-! ## Trees -/

mutual

/-- A subtree with what the tree holds at its nodes. -/
def Branch.subtree (t : ParseTree) : Branch → Subtree
  | .node id children =>
    .node id (t.label id) (t.node id).span (t.node id).error (Branch.subtrees t children)
  | .token i => .token i
  | .discarded i => .discarded i

/-- Subtrees side by side with what the tree holds at their nodes. -/
def Branch.subtrees (t : ParseTree) : List Branch → List Subtree
  | [] => []
  | b :: bs => Branch.subtree t b :: Branch.subtrees t bs

end

namespace ParseTree

open Subtree

/-- The subtree of a node with all that the tree holds. -/
def subtree (t : ParseTree) (id : NodeId) : Subtree := (t.branch id).subtree t

/-- The outermost processing commands of a tree that start at the token `n` or behind it. -/
def commandsFrom (t : ParseTree) (n : Nat) : List Subtree := (t.subtree t.root).commandsFrom n

variable {t : ParseTree} {x : Subtree} {n : Nat}

mutual

theorem subtree_eq_of_entries {parent : Option NodeId} : ∀ x : Subtree,
    (∀ entry ∈ x.entries parent, t.nodes[entry.1]? = some entry.2) → x.branch.subtree t = x
  | .node id _ _ _ children, h => by
    obtain ⟨_, hnode⟩ := Holds.node_eq ⟨parent, h⟩
    have hall := subtrees_eq_of_entries children fun e he => h e (List.mem_cons_of_mem _ he)
    rw [Subtree.branch, Branch.subtree, hall, label, hnode]
  | .token _, _ | .discarded _, _ => by simp [Subtree.branch, Branch.subtree]

theorem subtrees_eq_of_entries {parent : Option NodeId} : ∀ xs : List Subtree,
    (∀ entry ∈ entriesOf parent xs, t.nodes[entry.1]? = some entry.2) →
      Branch.subtrees t (branches xs) = xs
  | [], _ => by simp [branches, Branch.subtrees]
  | x :: xs, h => by
    rw [branches, Branch.subtrees,
      subtree_eq_of_entries x fun e he => h e (List.mem_append_left _ he),
      subtrees_eq_of_entries xs fun e he => h e (List.mem_append_right _ he)]

end

/-- **The subtree of the root is the whole.** -/
theorem IsWhole.subtree_root (h : t.IsWhole x) : t.subtree t.root = x := by
  have hmem := h.root_mem
  have hentries := subtree_eq_of_entries x h.nodes_eq
  obtain ⟨l, span, e, children, rfl⟩ := h.exists_root
  rw [subtree, h.branch_eq hmem]
  exact hentries

/-- The subtree of any other node is the one found there. -/
theorem IsWhole.subtree_eq (h : t.IsWhole x) {id : NodeId} {l : Label} {span : TokenSpan}
    {e : Option SyntaxError} {children : List Subtree} (hy : .node id l span e children ∈ x.nodes) :
    t.subtree id = .node id l span e children := by
  obtain ⟨parent, hentries⟩ := h.holds.of_mem_nodes hy
  rw [subtree, h.branch_eq hy]
  exact subtree_eq_of_entries _ hentries

theorem IsWhole.commandsFrom_eq (h : t.IsWhole x) (n : Nat) :
    t.commandsFrom n = x.commandsFrom n := by
  rw [commandsFrom, h.subtree_root]

/-- Where the dropped tokens of a tree are. -/
theorem IsWhole.lt_of_discarded (h : t.IsWhole x) (hx : x.DropsBefore n) {id : NodeId} {i : Nat}
    (hid : id < t.size) (hi : .discarded i ∈ t.children id) : i < n := by
  obtain ⟨l, span, e, cs, hy⟩ := h.exists_mem_nodes hid
  have hdrops : AllDropBefore n cs := hx.of_mem_nodes hy
  obtain ⟨_, hnode⟩ := (h.holds.of_mem_nodes hy).node_eq
  rw [children, hnode, List.mem_map] at hi
  obtain ⟨c, hc, hslot⟩ := hi
  cases c with
  | node | token => cases hslot
  | discarded i' =>
    cases hslot
    exact hdrops.lt_of_mem hc

end ParseTree

end PipeQuery

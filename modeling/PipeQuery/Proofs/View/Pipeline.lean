import Mathlib.Data.List.Forall2
import PipeQuery.Proofs.View.Commands

/-!
# Pipelines in order

A query with pipes wraps the query before its last pipe. So the nodes of the queries form a chain,
down to the source command, and each of them but that one has a pipe of its own. The pipeline of a
query lists the commands along this chain: one for the source, and one behind each pipe.

## Main definitions

* `ParseTree.Chain`, `ParseTree.pipes`: the chain of a query, and its pipes
* `ParseTree.stageStarts`: the places where the stages of a query start
* `ParseTree.Opens`: a command with its keyword at a place
* `ParseTree.Stretch`: slots that make up the tokens from a place up to another
* `ParseTree.Staged`: a query whose commands open its stages

## Main results

* `WritesCommand.opens`: the keyword of a command is the first of its tokens
* `Stretch.exists_staged`: the commands of a pipeline open the stages of its query
-/

namespace PipeQuery

open Token (Kind)

namespace ParseTree

/-- The chain of query nodes at a query, the one with the source command first. -/
inductive Chain (t : ParseTree) : List NodeId → NodeId → Prop where
  | source {id : NodeId} (hl : t.label id = .singleCommandQuery) : Chain t [id] id
  | stage {ids : List NodeId} {q id : NodeId} (hl : t.label id = .compositeQuery)
    (hq : t.IsChild id q) (hr : t.rule q = .query) (h : Chain t ids q) : Chain t (ids ++ [id]) id

/-- The place of a pipe. -/
def pipe? (t : ParseTree) : Slot → Option Nat
  | .token i => if (t.token i).kind = .pipe then some i else none
  | _ => none

/-- The places of the pipes among the children of nodes. -/
def pipes (t : ParseTree) (ids : List NodeId) : List Nat :=
  ids.flatMap fun id => (t.children id).filterMap t.pipe?

/-- The places where the stages of a query start: the source with the query, and each other stage
behind a pipe of its chain. -/
def stageStarts (t : ParseTree) (id : NodeId) (ids : List NodeId) : List Nat :=
  (t.node id).span.start :: (t.pipes ids).map (· + 1)

/-- The command `c` is the one at its node, and the token at `i` is its keyword. -/
structure Opens (t : ParseTree) (i : Nat) (c : Command) : Prop where
  command_eq : t.command? c.node = some c
  children_eq : ∃ slots, t.children c.node = .token i :: slots
  spelling_eq : (t.token i).kind.spelling? = some c.name

/-- Slots side by side that make up the tokens from a place up to another, with `n` nodes. -/
inductive Stretch (t : ParseTree) : List Slot → Nat → Nat → Nat → Prop where
  | nil {i : Nat} : Stretch t [] i i 0
  | token {i j n : Nat} {slots : List Slot} (h : Stretch t slots (i + 1) j n) :
    Stretch t (.token i :: slots) i j n
  | discarded {i j n : Nat} {slots : List Slot} (h : Stretch t slots (i + 1) j n) :
    Stretch t (.discarded i :: slots) i j n
  | node {id : NodeId} {i j k m n : Nat} {slots : List Slot} (hspan : (t.node id).span = ⟨i, k⟩)
    (hc : Stretch t (t.children id) i k m) (h : Stretch t slots k j n) :
    Stretch t (.node id :: slots) i j (m + 1 + n)

variable {t : ParseTree} {id : NodeId} {ids : List NodeId} {i j k n : Nat} {slots : List Slot}
  {c : Command}

/-! ## Stretches -/

open Subtree in
mutual

/-- A subtree that tiles some tokens makes them up. -/
theorem Holds.stretch : ∀ {x : Subtree} {slots : List Slot} {i j k n : Nat}, t.Holds x →
    x.Tiles i k → t.Stretch slots k j n →
      t.Stretch (x.slot :: slots) i j (x.branch.preorder.length + n)
  | .node id l span e children, slots, i, j, k, n, hx, htile, h => by
    obtain ⟨rfl, htile⟩ := htile
    obtain ⟨_, hnode⟩ := hx.node_eq
    have hchildren : t.children id = children.map slot := by rw [ParseTree.children, hnode]
    have hc := stretch_of_tiles (fun c hc => hx.of_mem_children hc) htile
    rw [← hchildren] at hc
    exact .node (by rw [hnode]) hc h
  | .token _, slots, i, j, k, n, _, htile, h => by
    obtain ⟨rfl, rfl⟩ := htile
    simpa [Subtree.slot, Subtree.branch, Branch.preorder] using Stretch.token h
  | .discarded _, slots, i, j, k, n, _, htile, h => by
    obtain ⟨rfl, rfl⟩ := htile
    simpa [Subtree.slot, Subtree.branch, Branch.preorder] using Stretch.discarded h

theorem stretch_of_tiles : ∀ {xs : List Subtree} {i j : Nat}, (∀ x ∈ xs, t.Holds x) →
    AllTile xs i j → t.Stretch (xs.map slot) i j (Branch.preorderOf (branches xs)).length
  | [], _, _, _, rfl => .nil
  | x :: xs, i, j, hx, ⟨k, htile, hrest⟩ => by
    rw [List.map_cons, branches, Branch.preorderOf, List.length_append]
    exact Holds.stretch (hx x List.mem_cons_self) htile
      (stretch_of_tiles (fun y hy => hx y (List.mem_cons_of_mem _ hy)) hrest)

end

theorem Stretch.le (h : t.Stretch slots i j n) : i ≤ j := by
  induction h with
  | nil => exact Nat.le_refl _
  | token _ ih | discarded _ ih => exact Nat.le_of_succ_le ih
  | node _ _ _ ihc ih => exact Nat.le_trans ihc ih

theorem Stretch.token_eq (h : t.Stretch (.token k :: slots) i j n) :
    k = i ∧ t.Stretch slots (i + 1) j n := by
  cases h with
  | token h => exact ⟨rfl, h⟩

theorem Stretch.node_inv (h : t.Stretch (.node id :: slots) i j n) :
    ∃ k m n', (t.node id).span = ⟨i, k⟩ ∧ t.Stretch (t.children id) i k m ∧
      t.Stretch slots k j n' ∧ n = m + 1 + n' := by
  cases h with
  | node hspan hc h => exact ⟨_, _, _, hspan, hc, h, rfl⟩

/-! ## Keywords -/

/-- The first token of a command is its keyword. -/
theorem WritesAction.keyword {a : Command.Action} (h : t.WritesAction id a)
    (hs : t.Stretch [.node id] i j n) :
    i < j ∧ (∃ slots, t.children id = .token i :: slots) ∧
      (t.token i).kind.spelling? = some (Command.name ⟨id, a⟩) := by
  obtain ⟨k, _, _, -, hbelow, hnil, -⟩ := hs.node_inv
  obtain ⟨x, slots, hc, hkey⟩ : ∃ x slots, t.children id = .token x :: slots ∧
      (t.token x).kind.spelling? = some (Command.name ⟨id, a⟩) := by
    cases h with
    | explainCmd hc hi | fromCmd hc hi | rowCmd hc hi | evalCmd hc hi | statsCmd hc hi
    | statsBy hc hi | whereCmd hc hi | limitCmd hc hi | sortCmd hc hi | projectCmd hc hi =>
      exact ⟨_, _, hc, by rw [hi]; rfl⟩
  rw [hc] at hbelow
  obtain ⟨rfl, hrest⟩ := hbelow.token_eq
  exact ⟨Nat.lt_of_lt_of_le hrest.le hnil.le, ⟨slots, hc⟩, hkey⟩

/-- **The keyword of a command is the first of its tokens**, also where another node chooses it. -/
theorem WritesCommand.opens (h : t.WritesCommand id c) (hc : t.command? c.node = some c)
    (hs : t.Stretch [.node id] i j n) : i < j ∧ t.Opens i c := by
  cases h with
  | own h =>
    obtain ⟨hlt, hchildren, hkey⟩ := h.keyword hs
    exact ⟨hlt, hc, hchildren, hkey⟩
  | chosen hchild h =>
    -- The node above has no tokens but those of the command.
    obtain ⟨k, _, _, -, hbelow, hnil, -⟩ := hs.node_inv
    rw [hchild] at hbelow
    obtain ⟨hlt, hchildren, hkey⟩ := h.keyword hbelow
    exact ⟨Nat.lt_of_lt_of_le hlt hnil.le, hc, hchildren, hkey⟩

/-! ## The stages of a query -/

/-- A query with the commands of its chain of at most `n` nodes, before a place. -/
structure Staged (t : ParseTree) (id : NodeId) (stop n : Nat) (q : Query) (ids : List NodeId) :
    Prop where
  query?_eq : t.query? id = some q
  chain : t.Chain ids id
  pos : 0 < ids.length
  length_le : ids.length ≤ n
  sorted : (t.stageStarts id ids).Pairwise (· < ·)
  lt_stop : ∀ i ∈ t.stageStarts id ids, i < stop
  opens : ∀ n, ids.length ≤ n + 1 →
    List.Forall₂ t.Opens (t.stageStarts id ids) (t.commandsBack n q).reverse

theorem Staged.mono {stop m : Nat} {q : Query} (h : t.Staged id stop n q ids) (hm : n ≤ m) :
    t.Staged id stop m q ids :=
  ⟨h.query?_eq, h.chain, h.pos, Nat.le_trans h.length_le hm, h.sorted, h.lt_stop, h.opens⟩

/-- A query without pipes has one stage. -/
theorem Spelled.staged_single (h : t.Spelled) (hid : id < t.size)
    (hl : t.label id = .singleCommandQuery) (hspan : (t.node id).span = ⟨i, j⟩)
    (hc : t.Stretch (t.children id) i j n) : ∃ q, t.Staged id j (n + 1) q [id] := by
  obtain ⟨c, command, hquery, hchildren, -, hw, -, hcommand⟩ := h.singleQuery? hid hl
  rw [hchildren] at hc
  obtain ⟨hlt, hopens⟩ := hw.opens hcommand hc
  have hstarts : t.stageStarts id [id] = [i] := by
    simp [stageStarts, pipes, pipe?, hchildren, hspan]
  refine ⟨.single command, hquery, .source hl, Nat.one_pos, Nat.le_add_left 1 n, ?_, ?_, ?_⟩
  · rw [hstarts]
    exact List.pairwise_singleton _ _
  · rw [hstarts]
    exact List.forall_mem_singleton.mpr hlt
  · intro n _
    rw [hstarts]
    cases n <;> exact .cons hopens .nil

/-- A pipe adds one stage behind those of the query before it. -/
theorem Spelled.staged_composite (h : t.Spelled) (hid : id < t.size)
    (hl : t.label id = .compositeQuery) (hspan : (t.node id).span = ⟨i, j⟩)
    (hc : t.Stretch (t.children id) i j n)
    (hbefore : ∀ q < t.size, .node q ∈ t.children id → t.rule q = .query →
      ∃ v ids, t.Staged q (t.node q).span.stop n v ids) :
    ∃ v ids, t.Staged id j (n + 1) v ids := by
  obtain ⟨q, p, c, command, hquery, hchildren, ⟨hlt, hq⟩, hp, -, hw, -, hcommand⟩ :=
    h.compositeQuery? hid hl
  have hchild : .node q ∈ t.children id := by
    rw [hchildren]
    exact List.mem_cons_self
  obtain ⟨v, ids, hv⟩ := hbefore q hlt hchild hq
  -- The pipe stands where the query before it stops, and the command behind the pipe.
  rw [hchildren] at hc
  obtain ⟨k, _, _, hspan', -, hc, -⟩ := hc.node_inv
  obtain ⟨rfl, hc⟩ := hc.token_eq
  obtain ⟨hltj, hopens⟩ := hw.opens hcommand hc
  have hstarts : t.stageStarts id (ids ++ [id]) = t.stageStarts q ids ++ [p + 1] := by
    simp [stageStarts, pipes, pipe?, hchildren, hp, hspan, hspan', List.filterMap_cons]
  have hstop : ∀ i ∈ t.stageStarts q ids, i < p := by
    have hstop := hv.lt_stop
    rwa [hspan'] at hstop
  refine ⟨.composite q command, ids ++ [id], hquery, .stage hl hchild hq hv.chain, ?_, ?_, ?_, ?_,
    ?_⟩
  · rw [List.length_append]
    exact Nat.succ_pos _
  · rw [List.length_append]
    exact Nat.succ_le_succ hv.length_le
  · rw [hstarts, List.pairwise_append]
    refine ⟨hv.sorted, List.pairwise_singleton _ _, fun i hi k hk => ?_⟩
    rw [List.mem_singleton.mp hk]
    exact Nat.lt_succ_of_lt (hstop i hi)
  · intro i hi
    rw [hstarts, List.mem_append, List.mem_singleton] at hi
    rcases hi with hi | rfl
    · exact Nat.lt_trans (hstop i hi) (Nat.lt_of_succ_lt hltj)
    · exact hltj
  · intro n hn
    rw [List.length_append] at hn
    have hn : ids.length ≤ n := Nat.le_of_succ_le_succ hn
    -- The chain has another node, so there is fuel left for the query before the pipe.
    obtain ⟨n, rfl⟩ := Nat.exists_eq_add_of_le' (Nat.le_trans hv.pos hn)
    have hback : t.commandsBack (n + 1) (.composite q command) =
        command :: t.commandsBack n v := by
      rw [commandsBack, hv.query?_eq]
      rfl
    rw [hstarts, hback, List.reverse_cons]
    exact List.rel_append (hv.opens n hn) (.cons hopens .nil)

/-- **The commands of a pipeline open the stages of its query.** -/
theorem Stretch.exists_staged (hs : t.Stretch slots i j n) (h : t.Spelled) (hid : id < t.size)
    (hmem : .node id ∈ slots) (hr : t.rule id = .query) :
    ∃ q ids, t.Staged id (t.node id).span.stop n q ids := by
  -- By induction on the stretch, since the query before a pipe is a child of the query.
  induction hs generalizing id with
  | nil => exact absurd hmem List.not_mem_nil
  | token _ ih | discarded _ ih =>
    rcases List.mem_cons.mp hmem with hmem | hmem
    · cases hmem
    · exact ih hid hmem hr
  | @node id' i j k m n slots hspan hc _ ihc ih =>
    rcases List.mem_cons.mp hmem with hmem | hmem
    · obtain rfl : id = id' := Slot.node.inj hmem
      have hstop : (t.node id).span.stop = k := congrArg TokenSpan.stop hspan
      rw [hstop]
      rcases h.label_of_query hid hr with hl | hl
      · obtain ⟨q, hq⟩ := h.staged_single hid hl hspan hc
        exact ⟨q, [id], hq.mono (Nat.le_add_right _ _)⟩
      · obtain ⟨q, ids, hq⟩ := h.staged_composite hid hl hspan hc fun q hlt hq => ihc hlt hq
        exact ⟨q, ids, hq.mono (Nat.le_add_right _ _)⟩
    · obtain ⟨q, ids, hq⟩ := ih hid hmem hr
      exact ⟨q, ids, hq.mono (Nat.le_add_left _ _)⟩

end ParseTree

end PipeQuery

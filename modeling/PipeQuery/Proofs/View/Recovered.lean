import Mathlib.Data.List.DropRight
import PipeQuery.Proofs.Parser.Origins
import PipeQuery.View.Query

/-!
# Pipelines of recovered trees

The commands of a query stand one below each node of its chain, also in a tree with errors, and the
rules that choose a command leave it to the one node below theirs to say what the command does. The
pipeline of the query follows the chain from its last node down, but it reads a node of the chain
only as a whole: where a command does not say what it does, it stops, and the stages before that one
are not in the pipeline, the source included.

## Main definitions

* `ParseTree.Commands`: the nodes of the commands of a query, in source order
* `ParseTree.casts`: whether the node of a command says what the command does
* `Rule.choices`, `Site.Settled`: the rules that choose a command, and nodes with none of them right
  below

## Main results

* `Parser.command?_choice`: a node that chooses a command says what the node below it says
* `ParseTree.Commands.commandsBack_eq`: what following the chain finds
* `Parser.recovered_pipeline`: the pipeline of a query lists the commands behind the last one that
  does not say what it does
-/

namespace PipeQuery

open Token (Kind)

/-- What a look-up finds from the end on, up to the first miss, is all that it finds, if there is no
hit in front of a miss. -/
theorem filterMap_rtakeWhile {α β : Type} (f : α → Option β) (l : List α) :
    (l.rtakeWhile fun x => (f x).isSome).filterMap f = l.filterMap f ↔
      l.Pairwise fun x y => (f x).isSome → (f y).isSome := by
  induction l using List.reverseRecOn with
  | nil => simp
  | append_singleton l x ih =>
    rw [List.pairwise_append]
    cases hx : f x with
    | some y =>
      rw [List.rtakeWhile_concat_pos _ _ _ (by simp [hx])]
      simp [hx, ih]
    | none =>
      rw [List.rtakeWhile_concat_neg _ _ _ (by simp [hx])]
      -- The look-up from the end finds nothing, so there must be nothing to find before it either.
      have hnil : [] = (l ++ [x]).filterMap f ↔ ∀ y ∈ l, f y = none := by
        rw [List.filterMap_append, List.filterMap_cons_none hx, List.filterMap_nil, List.append_nil,
          eq_comm, List.filterMap_eq_nil_iff]
      rw [List.filterMap_nil, hnil]
      constructor
      · intro h
        refine ⟨List.pairwise_of_forall_mem_list fun y hy _ _ => ?_,
          List.pairwise_singleton _ _, ?_⟩
        · simp [h y hy]
        · exact fun y hy _ _ => by simp [h y hy]
      · intro h y hy
        have hmiss := h.2.2 y hy x List.mem_cons_self
        simpa [hx] using hmiss

/-- The rules that choose a command. -/
def Rule.choices : List Rule := [.sourceCommand, .processingCommand]

namespace ParseTree

/-- The nodes of the commands of a query, in source order: the source command below the innermost
node of its chain, and behind each pipe a processing command. -/
inductive Commands (t : ParseTree) : List NodeId → NodeId → Prop where
  | source {id c : NodeId} (hl : t.label id = .singleCommandQuery) (hc : t.childNodes id = [c])
    (hr : t.rule c = .sourceCommand) : Commands t [c] id
  | stage {cs : List NodeId} {id q c : NodeId} (hl : t.label id = .compositeQuery)
    (hc : t.childNodes id = [q, c]) (hr : t.rule c = .processingCommand) (h : Commands t cs q) :
    Commands t (cs ++ [c]) id

/-- Whether the node of a command says what the command does. -/
def casts (t : ParseTree) (c : NodeId) : Bool := (t.command? c).isSome

variable {t : ParseTree} {id q c : NodeId} {cs : List NodeId}

theorem query?_of_single (hl : t.label id = .singleCommandQuery) (hc : t.childNodes id = [c]) :
    t.query? id = (t.command? c).map .single := by
  cases hcommand : t.command? c <;> simp [query?, hl, childNode?, hc, hcommand]

theorem query?_of_composite (hl : t.label id = .compositeQuery) (hc : t.childNodes id = [q, c]) :
    t.query? id = (t.command? c).map (.composite q) := by
  cases hcommand : t.command? c <;> simp [query?, hl, childNode?, hc, hcommand]

theorem rule_mem_choices {l : Label} :
    l.rule ∈ Rule.choices ↔ l = .sourceCommand ∨ l = .processingCommand := by
  cases l <;> decide

theorem command?_of_mem (h : t.rule id ∈ Rule.choices) :
    t.command? id = (t.childNode? id 0).bind fun c => (t.action? c).map (Command.mk c) := by
  have hchosen : t.command? id = (t.childNode? id 0).bind fun c =>
      (t.action? c).bind fun a => some ⟨c, a⟩ := by
    rcases rule_mem_choices.mp h with hl | hl <;> rw [command?, hl] <;> rfl
  rw [hchosen]
  exact Option.bind_congr fun c _ => Option.map_eq_bind.symm

theorem command?_of_not_mem (h : t.rule id ∉ Rule.choices) :
    t.command? id = (t.action? id).map (Command.mk id) := by
  rw [rule, rule_mem_choices, not_or] at h
  rw [command?]
  split
  · exact absurd ‹_› h.1
  · exact absurd ‹_› h.2
  · rfl

theorem Commands.length_pos (h : t.Commands cs id) : 0 < cs.length := by
  cases h <;> simp

/-- **What following the chain finds**: the commands at its end, up to one that does not say what it
does. -/
theorem Commands.commandsBack_eq (h : t.Commands cs id) {n : Nat} (hn : cs.length ≤ n + 1) :
    (((t.query? id).map (t.commandsBack n)).getD []).reverse =
      (cs.rtakeWhile t.casts).filterMap t.command? := by
  induction h generalizing n with
  | @source id c hl hc hr =>
    rw [query?_of_single hl hc, ← List.nil_append [c], List.rtakeWhile_concat]
    cases hcommand : t.command? c with
    | none => simp [casts, hcommand]
    | some command => cases n <;> simp [casts, hcommand, commandsBack]
  | @stage cs id q c hl hc hr h ih =>
    rw [query?_of_composite hl hc, List.rtakeWhile_concat]
    cases hcommand : t.command? c with
    | none => simp [casts, hcommand]
    | some command =>
      -- There is another node of the chain, so there is fuel left to follow it.
      have hlen : cs.length ≤ n := by simpa using hn
      obtain ⟨n, rfl⟩ := Nat.exists_eq_add_of_le' (Nat.le_trans h.length_pos hlen)
      simp [casts, hcommand, commandsBack, ← ih hlen]

/-! ## The nodes of the commands of a query -/

open Subtree

theorem Holds.children_eq {x : Site} (h : t.Holds x.subtree) :
    t.children x.id = x.children.map slot := by
  obtain ⟨_, hnode⟩ := h.node_eq
  rw [children, hnode]

/-- The child nodes of a node are those of its parts. -/
theorem Holds.map_childNodes {x : Site} (h : t.Holds x.subtree) :
    (t.childNodes x.id).map Slot.node = x.parts.map slot := by
  rw [childNodes, h.children_eq, Site.parts]
  induction x.children with
  | nil => rfl
  | cons c cs ih => cases c <;> simpa [List.filter_cons, slot, isNode] using ih

theorem Holds.childNodes_eq {x : Site} (h : t.Holds x.subtree) {ids : List NodeId}
    (hids : x.parts.map slot = ids.map .node) : t.childNodes x.id = ids :=
  List.map_injective_iff.mpr (fun _ _ => Slot.node.inj) (h.map_childNodes.trans hids)

theorem Holds.of_mem_parts {x : Site} (h : t.Holds x.subtree) {y : Subtree} (hy : y ∈ x.parts) :
    t.Holds y :=
  h.of_mem_children (List.mem_filter.mp hy).1

theorem Holds.label_eq {x : Site} (h : t.Holds x.subtree) : t.label x.id = x.label := by
  obtain ⟨_, hnode⟩ := h.node_eq
  rw [label, hnode]

theorem Holds.rule_eq {y : Subtree} {r : Rule} (h : t.Holds y) (hr : y.rule? = some r) :
    ∃ id, y.slot = .node id ∧ t.rule id = r := by
  cases y with
  | token | discarded => cases hr
  | node id label span e children =>
    obtain ⟨_, hnode⟩ := h.node_eq
    refine ⟨id, rfl, ?_⟩
    rw [rule, ParseTree.label, hnode]
    exact Option.some.inj hr

theorem Holds.rule_of_mem {x : Site} (h : t.Holds x.subtree) (hc : c ∈ t.childNodes x.id) :
    ∃ y ∈ x.parts, y.rule? = some (t.rule c) := by
  have hslot : Slot.node c ∈ x.parts.map slot := h.map_childNodes ▸ List.mem_map_of_mem hc
  obtain ⟨y, hy, hslot⟩ := List.mem_map.mp hslot
  cases y with
  | token | discarded => cases hslot
  | node id label span e children =>
    cases hslot
    obtain ⟨_, hid, hr⟩ := (h.of_mem_parts hy).rule_eq rfl
    cases hid
    exact ⟨_, hy, congrArg some hr.symm⟩

/-- The nodes of a subtree below a node are fewer than those of the whole. -/
theorem length_preorder_lt {x y : Site} (hy : y.subtree ∈ x.parts) :
    y.subtree.branch.preorder.length < x.subtree.branch.preorder.length := by
  have hmem : y.subtree ∈ nodesOf x.children :=
    nodes_subset_of_mem (List.mem_filter.mp hy).1 List.mem_cons_self
  have hpre : x.subtree.branch.preorder = x.id :: Branch.preorderOf (branches x.children) := by
    rw [Site.subtree, Subtree.branch, Branch.preorder]
  rw [hpre, List.length_cons]
  exact Nat.lt_succ_of_le (sublist_of_mem_nodesOf x.children hmem).1.length_le

/-- **The commands of a query** stand one below each node of its chain, in order. -/
theorem Holds.exists_commands {label : Label} {parts : List Subtree} (hq : Queried label parts)
    {x : Site} (hl : x.label = label) (hp : x.parts = parts) (h : t.Holds x.subtree) :
    ∃ cs, t.Commands cs x.id ∧ cs.length ≤ x.subtree.branch.preorder.length := by
  induction hq generalizing x with
  | @source c hc =>
    have hcommand : c ∈ x.parts := hp ▸ List.mem_cons_self
    obtain ⟨id, hslot, hr⟩ := (h.of_mem_parts hcommand).rule_eq hc
    refine ⟨[id], .source (h.label_eq.trans hl) (h.childNodes_eq ?_) hr, ?_⟩
    · rw [hp, List.map_singleton, hslot, List.map_singleton]
    · rw [Site.subtree, Subtree.branch, Branch.preorder]
      exact Nat.succ_le_succ (Nat.zero_le _)
  | @stage y c hq hc ih =>
    have hquery : y.subtree ∈ x.parts := hp ▸ List.mem_cons_self
    have hcommand : c ∈ x.parts := hp ▸ List.mem_cons_of_mem _ List.mem_cons_self
    obtain ⟨id, hslot, hr⟩ := (h.of_mem_parts hcommand).rule_eq hc
    obtain ⟨cs, hcs, hlen⟩ := ih rfl rfl (h.of_mem_parts hquery)
    refine ⟨cs ++ [id], .stage (h.label_eq.trans hl) (h.childNodes_eq ?_) hr hcs, ?_⟩
    · rw [hp, List.map_cons, List.map_singleton, hslot]
      rfl
    · rw [List.length_append]
      exact Nat.lt_of_le_of_lt hlen (length_preorder_lt hquery)

end ParseTree

/-- No choice stands right below a node. -/
def Site.Settled (y : Site) : Prop := ∀ c ∈ y.parts, ∀ r ∈ c.rule?, r ∉ Rule.choices

theorem Site.Settled.alike {x y : Site} (h : x.Settled) (hxy : x.Alike y) : y.Settled := by
  rw [Settled, hxy.parts_eq]
  exact h

namespace Parser

open ParseTree Script

/-! ## The choice of a command -/

section Choices

variable {strategy : Strategy} {limit d : Nat} {ts : Array Token} {s t : State} {res : Result}
  {x : Site} {p : Path} {first : Kind → Option Rule} {set : Token.KindSet}

theorem single_choices : ∀ r ∈ Rule.choices, r.Single := by
  intro r hr l
  revert r
  cases l <;> decide

/-- What is chosen is no choice itself. -/
theorem opening_choice {r : Rule} (hr : r ∈ Rule.choices) (f : Nat) (w : List Kind) :
    ∃ first set, opening r f w = choice first set w ∧
      ∀ k, ∀ r' ∈ first k, r' ∉ Rule.choices := by
  simp only [Rule.choices, List.mem_cons, List.not_mem_nil, or_false] at hr
  rcases hr with rfl | rfl
  · exact ⟨sourceCommandOf, _, rfl, by decide⟩
  · exact ⟨processingCommandOf, _, rfl, by decide⟩

/-- A choice leaves the rule that is chosen below its node, or nothing but dropped tokens. -/
theorem Executes.choice_settled (h : Executes strategy limit d (choice first set s.coming) s res)
    (hfirst : ∀ k, ∀ r ∈ first k, r ∉ Rule.choices)
    (hmakes : ∀ d' < d, Makes strategy limit ts Rule.choices Site.Settled d')
    (ht : Tracks s (x :: p)) (hx : x.parts = []) (hs : s.stream.Proper)
    (hts : s.stream.tokens = ts) (hon : res.OnTo t) :
    ∃ y, Tracks t (y :: p) ∧ y.Settled ∧ y.Each Rule.choices Site.Settled := by
  rw [choice] at h
  split at h
  · -- The rule that is chosen leaves one node. It is entered with a label of its own, and keeps it
    -- or takes one of its alternatives, so the node is no choice.
    rename_i r hr
    have hrule : (Label.ofRule r).rule ∉ Rule.choices := by
      rw [Label.rule_ofRule]
      exact hfirst _ r hr
    obtain ⟨d', _, u, hd, hbody, hbodyc, hdone⟩ := h.call_body hon
    cases hdone
    obtain rfl := onTo_ok.mp hon
    obtain ⟨y, hy, hl, heach⟩ := closing_each hbodyc fun v hv =>
      hbody.each single_choices (fun d'' hd' => hmakes d'' (hd'.trans hd))
        (ht.enter (.ofRule r) 0) hs hts (opening_alternatives r 0 _) (fun c hc => by cases hc)
        hrule hv
    have hparts : (x.add y.subtree).parts = [y.subtree] := by
      rw [Site.parts_add rfl, hx, List.nil_append]
    refine ⟨_, hy, ?_, ?_⟩
    · rw [Site.Settled, hparts, List.forall_mem_singleton]
      rintro _ ⟨⟩
      exact hl
    · rw [Site.Each, hparts, List.forall_mem_singleton]
      exact heach
  · -- There is none to choose, and the error adds no node.
    cases h with
    | step _ hrun => exact absurd hrun fail_ne_ok
    | stop _ hrun =>
      rw [Move.run] at hrun
      obtain ⟨e, he⟩ := ht.fail_onTo (hrun ▸ hon)
      have hnone : ({ x with error := e } : Site).parts = [] := hx
      exact ⟨_, he, fun c hc => (by simp [hnone] at hc), fun c hc => by simp [hnone] at hc⟩

/-- **Below the node of a choice** stands no other choice, whatever errors the parse meets. -/
theorem makes_choices (d : Nat) : Makes strategy limit ts Rule.choices Site.Settled d := by
  -- Queries stand in the brackets of `explain`, so there may be choices farther below.
  induction d using Nat.strongRecOn with
  | ind d ih =>
    intro r hr f s s' res x p h hc ht hs hts
    obtain ⟨first, set, hopening, hfirst⟩ := opening_choice hr f s.coming
    rw [hopening] at h
    obtain ⟨v, y, rfl, hy, hsettled, heach⟩ := closing_site hc
      (fun ⟨hsettled, heach⟩ halike => ⟨hsettled.alike halike, heach.alike halike⟩) fun t hon =>
        h.choice_settled hfirst ih (ht.enter (.ofRule r) f) rfl hs hts hon
    exact ⟨_, hy.leave, heach.subtree fun _ => hsettled⟩

end Choices

variable {options : Options} {tokens : List Token} {t : ParseTree} {q : Query}

/-- **A choice of commands says what its first child says**, in every tree. The child is no choice
again, so that one look below the node is enough. -/
theorem command?_choice (entry : Entry) (h : entry.parse options tokens = .ok t) {id : NodeId}
    (hid : id < t.size) (hr : t.rule id ∈ Rule.choices) :
    t.command? id = (t.childNode? id 0).bind t.command? := by
  obtain ⟨y, rfl, hholds, hsettled⟩ :=
    parse_each entry h single_choices (by decide) makes_choices hid hr
  -- Both sides look at the first child; they differ in whether it is asked for its own child again.
  rw [command?_of_mem hr]
  refine Option.bind_congr fun c hc => ?_
  obtain ⟨z, hz, hzrule⟩ := hholds.rule_of_mem (List.mem_of_getElem? hc)
  exact (command?_of_not_mem (hsettled z hz _ hzrule)).symm

/-! ## Pipelines -/

/-- **The pipeline of a query**, in whatever tree: it lists the commands from the last stage back to
one whose command does not say what it does. So it lists all commands of the query that say what
they do if none of them stands before one that does not, and only then. -/
theorem recovered_pipeline (h : parseTokens options tokens = .ok t)
    (hq : t.statementQuery? = some q) :
    ∃ id cs, t.childNodes t.root = [id] ∧ t.query? id = some q ∧ t.Commands cs id ∧
      t.pipeline q = (cs.rtakeWhile t.casts).filterMap t.command? ∧
      (t.pipeline q = cs.filterMap t.command? ↔
        cs.Pairwise fun c c' => t.casts c → t.casts c') := by
  obtain ⟨x, y, hwhole, hroot, hparts, hqueried⟩ := statement_queried h
  have hy : y.subtree ∈ x.parts := hparts ▸ List.mem_cons_self
  have hholds := hwhole.holds
  obtain ⟨cs, hcs, hlen⟩ := Holds.exists_commands hqueried rfl rfl (hholds.of_mem_parts hy)
  -- There is one node below the root, which is the query.
  have hid : x.id = t.root := Slot.node.inj hwhole.slot_eq
  have hchild : t.childNodes t.root = [y.id] := by
    rw [← hid]
    exact hholds.childNodes_eq (congrArg _ hparts)
  have hstatement : t.statementQuery? = t.query? y.id := by
    have hlabel : t.label t.root = .singleStatement := by rw [← hid, hholds.label_eq, hroot]
    rw [statementQuery?, isStatement, hlabel, if_pos (by simp), hchild, List.findSome?_singleton]
  have hquery : t.query? y.id = some q := hstatement.symm.trans hq
  have hsize : cs.length ≤ t.size := by
    have hlen' := (length_preorder_lt hy).le
    rw [hwhole.perm.length_eq, List.length_range] at hlen'
    exact hlen.trans hlen'
  have hpipeline : t.pipeline q = (cs.rtakeWhile t.casts).filterMap t.command? := by
    have hback := hcs.commandsBack_eq (Nat.le_succ_of_le hsize)
    rwa [hquery] at hback
  refine ⟨y.id, cs, hchild, hquery, hcs, hpipeline, ?_⟩
  rw [hpipeline]
  exact filterMap_rtakeWhile t.command? cs

/-- The tokens of `from a | b | limit 1`, where no command is called `b`. -/
def unknownStage : List Token :=
  [Kind.fromCmd, .sourceName, .pipe, .unknownCmd, .pipe, .limitCmd, .integer].map Token.ofKind

theorem recovered_pipeline_unknownStage :
    ∃ t q, parseTokens ⟨60, .recover⟩ unknownStage = .ok t ∧ t.statementQuery? = some q ∧
      ∃ id cs, t.childNodes t.root = [id] ∧ t.query? id = some q ∧ t.Commands cs id ∧
        t.pipeline q = (cs.rtakeWhile t.casts).filterMap t.command? ∧
        (t.pipeline q = cs.filterMap t.command? ↔
          cs.Pairwise fun c c' => t.casts c → t.casts c') := by
  obtain ⟨t, h, hq⟩ : ∃ t, parseTokens ⟨60, .recover⟩ unknownStage = .ok t ∧
      t.statementQuery? = some (.composite 5 ⟨9, .limitCmd (.ofKind .integer)⟩) := by
    decide +kernel
  exact ⟨t, _, h, hq, recovered_pipeline h hq⟩

/-- The source of that query says what it does, and is not in the pipeline. -/
theorem pipeline_cut :
    ∃ t q id cs source, parseTokens ⟨60, .recover⟩ unknownStage = .ok t ∧
      t.statementQuery? = some q ∧ t.childNodes t.root = [id] ∧ t.Commands cs id ∧
      (cs.filterMap t.command?).head? = some source ∧ source ∉ t.pipeline q ∧
      t.pipeline q ≠ cs.filterMap t.command? := by
  obtain ⟨t, h, hq, hroot, hsource, hpipeline, hne, h₁, h₅, h₇⟩ :
      ∃ t, parseTokens ⟨60, .recover⟩ unknownStage = .ok t ∧
        t.statementQuery? = some (.composite 5 ⟨9, .limitCmd (.ofKind .integer)⟩) ∧
        t.childNodes t.root = [7] ∧
        ([2, 6, 8].filterMap t.command?).head? = some ⟨3, .fromCmd [""]⟩ ∧
        ⟨3, .fromCmd [""]⟩ ∉ t.pipeline (.composite 5 ⟨9, .limitCmd (.ofKind .integer)⟩) ∧
        t.pipeline (.composite 5 ⟨9, .limitCmd (.ofKind .integer)⟩) ≠
          [2, 6, 8].filterMap t.command? ∧
        (t.label 1 = .singleCommandQuery ∧ t.childNodes 1 = [2] ∧ t.rule 2 = .sourceCommand) ∧
        (t.label 5 = .compositeQuery ∧ t.childNodes 5 = [1, 6] ∧ t.rule 6 = .processingCommand) ∧
        t.label 7 = .compositeQuery ∧ t.childNodes 7 = [5, 8] ∧ t.rule 8 = .processingCommand := by
    decide +kernel
  have hcommands : t.Commands [2, 6, 8] 7 :=
    .stage h₇.1 h₇.2.1 h₇.2.2 (.stage h₅.1 h₅.2.1 h₅.2.2 (.source h₁.1 h₁.2.1 h₁.2.2))
  exact ⟨t, _, 7, _, _, h, hq, hroot, hcommands, hsource, hpipeline, hne⟩

end Parser

end PipeQuery

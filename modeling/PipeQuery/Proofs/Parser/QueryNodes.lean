import PipeQuery.Proofs.Parser.Entries
import PipeQuery.Proofs.Parser.Outer

/-!
# The nodes of a query

Whatever errors a query meets, its nodes stay in order: the innermost node of the query has the
source command below it, and each other one has the query before its pipe and the command behind it.
An error drops tokens among these nodes, or leaves a command without what belongs to it, but it
neither takes one of them away nor adds another.

## Main definitions

* `Site.parts`, `Site.Alike`: the nodes below a node, and nodes that agree in their label and in
  those below them
* `Queried`: the node of a query, by its label and the nodes below it
* `Piping`: what is still to be done of a query, whatever is dropped

## Main results

* `Executes.piping`: a query that is parsed has its nodes in order
* `statement_queried`: the query of a tree, with errors or without
-/

namespace PipeQuery

open Token (Kind KindSet)

/-- The rule of the node of a subtree. -/
def Subtree.rule? : Subtree → Option Rule
  | .node _ label .. => some label.rule
  | .token _ | .discarded _ => none

namespace Site

/-- The nodes below a node, without its leaves. -/
def parts (x : Site) : List Subtree := x.children.filter Subtree.isNode

/-- The same label, and the same nodes below. -/
structure Alike (x y : Site) : Prop where
  label_eq : y.label = x.label
  parts_eq : y.parts = x.parts

variable {x y z : Site}

theorem Alike.refl (x : Site) : x.Alike x := ⟨rfl, rfl⟩

theorem Alike.trans (h : x.Alike y) (h' : y.Alike z) : x.Alike z :=
  ⟨h'.label_eq.trans h.label_eq, h'.parts_eq.trans h.parts_eq⟩

/-- A leaf is no node. -/
theorem alike_add {leaf : Subtree} (h : leaf.isNode = false) (x : Site) : x.Alike (x.add leaf) := by
  refine ⟨rfl, ?_⟩
  rw [parts, add, List.filter_append, List.filter_cons_of_neg (by simp [h])]
  exact List.append_nil _

theorem parts_add {c : Subtree} (h : c.isNode = true) (x : Site) :
    (x.add c).parts = x.parts ++ [c] := by
  rw [parts, add, List.filter_append, List.filter_cons_of_pos h]
  rfl

end Site

/-- The label of the node of a query, and the nodes below it: the source command, or the query
before the last pipe and the command behind it. -/
inductive Queried : Label → List Subtree → Prop where
  | source {c : Subtree} (hc : c.rule? = some .sourceCommand) : Queried .singleCommandQuery [c]
  | stage {x : Site} {c : Subtree} (hq : Queried x.label x.parts)
    (hc : c.rule? = some .processingCommand) : Queried .compositeQuery [x.subtree, c]

namespace Parser

variable {strategy : Strategy} {limit d : Nat} {r : Rule} {m : Move} {q : Script} {s s' : State}
  {res : Result} {x x' y : Site} {p : Path} {w : List Kind} {label : Label} {parts : List Subtree}

/-! ## What errors leave of a node -/

/-- Tokens that are dropped into a node change nothing of the nodes below it. -/
theorem discardUntil_alike (hb : s.arena.Builds (x :: p)) (stop : KindSet) (n : Nat) :
    ∃ y, x.Alike y ∧ y.id = x.id ∧ (s.discardUntil x.id stop n).arena.Builds (y :: p) := by
  refine discardUntil_induction n
    (P := fun t => ∃ y, x.Alike y ∧ y.id = x.id ∧ t.arena.Builds (y :: p))
    ⟨x, .refl x, rfl, hb⟩ ?_
  rintro t ⟨y, hxy, hid, hy⟩ - -
  have hleaf : y.Alike (y.add (.discarded t.cursor)) := Site.alike_add rfl y
  refine ⟨_, hxy.trans hleaf, hid, ?_⟩
  rw [← hid]
  exact hy.push (x := .discarded t.cursor) fun _ => rfl

theorem Tracks.discardUntil_alike (h : Tracks s (x :: p)) (stop : KindSet) (n : Nat) :
    ∃ y, x.Alike y ∧ Tracks (s.discardUntil s.node stop n) (y :: p) := by
  obtain ⟨y, hxy, hid, hy⟩ := Parser.discardUntil_alike h.builds stop n
  rw [h.node_eq]
  refine ⟨y, hxy, hy, ?_⟩
  obtain ⟨_, _, heq⟩ := discardUntil_eq x.id stop n s
  rw [heq, List.map_cons, hid]
  exact h.frames_eq

/-- Looking for a place to go on drops tokens. -/
theorem Tracks.recover_alike (h : Tracks s (x :: p)) (hr : recover s = .ok () s') :
    ∃ y, x.Alike y ∧ Tracks s' (y :: p) := by
  have hs : Tracks { s with recovering := true } (x :: p) := ⟨h.builds, h.frames_eq⟩
  rw [recover_ok_eq hr]
  exact hs.discardUntil_alike s.resyncSet s.stream.remaining

/-- An error that a rule is left with stays at its node. -/
theorem Tracks.fail_alike {cause : SyntaxError.Cause} {expected : KindSet} (h : Tracks s (x :: p))
    (hf : fail strategy cause expected s = .error .resync s') :
    ∃ y, x.Alike y ∧ Tracks s' (y :: p) := by
  obtain ⟨e, he⟩ := reportHere_tracks (fail_resync hf) h
  exact ⟨{ x with error := e }, ⟨rfl, rfl⟩, he⟩

/-- Looking for the end of a stage drops tokens. -/
theorem Tracks.sync_alike (h : Tracks s (x :: p)) (hs : syncStage strategy s = .ok () s') :
    ∃ y, x.Alike y ∧ Tracks s' (y :: p) := by
  obtain ⟨t, ht, hs⟩ := syncStage_ok_inv hs
  obtain ⟨y, hxy, hy⟩ := h.fail_alike ht
  obtain ⟨z, hyz, hz⟩ := hy.recover_alike hs
  exact ⟨z, hxy.trans hyz, hz⟩

/-- **A rule that chooses among others** leaves a node of its own, also if there is none to
choose. -/
theorem Executes.chosen {first : Kind → Option Rule} {set : KindSet}
    (h : Executes strategy limit d (choice first set w) s res) (ht : Tracks s (x :: x' :: p))
    (hs : s.stream.Proper) (hc : closing res = .ok () s') :
    ∃ c, c.rule? = some x.label.rule ∧ Tracks s' (x'.add c :: p) := by
  -- However the rule ends, its node is closed with the label that it was opened with.
  obtain ⟨v, y, rfl, hy, hl⟩ : ∃ v y, s' = v.leave ∧ Tracks v (y :: x' :: p) ∧
      y.label = x.label := by
    rw [choice] at h
    split at h
    · cases h with
      | @call _ _ _ _ _ t _ res' _ hb hclosing hp =>
        cases hp
        cases hc
        obtain ⟨u, hu, he⟩ := closing_state res'
        rw [hclosing] at hu
        obtain rfl : t = u.leave := hu
        obtain ⟨c, hadd, -⟩ := ((hb.evolves hs).trans he).tracks_nest ht
        exact ⟨_, _, rfl, hadd, rfl⟩
      | @callStop _ _ _ _ _ t a _ _ _ hclosing =>
        cases a with
        | resync => exact absurd hclosing closing_ne_resync
        | halt => cases hc
      | deep => cases hc
    · cases h with
      | step _ hrun => exact absurd hrun fail_ne_ok
      | @stop _ _ _ _ t a _ hrun =>
        cases a with
        | halt => cases hc
        | resync =>
          obtain ⟨y, hxy, hy⟩ := ht.fail_alike hrun
          rw [closing] at hc
          split at hc
          · rename_i u hu
            cases hc
            obtain ⟨z, hyz, hz⟩ := hy.recover_alike hu
            exact ⟨u, z, rfl, hz, (hxy.trans hyz).label_eq⟩
          · cases hc
  exact ⟨(y.close v.cursor).subtree, congrArg (fun l : Label => some l.rule) hl, hy.leave⟩

/-! ## The stages of a query -/

/-- What is left to do of a query over the tokens to come, at a node with this label and these nodes
below it. -/
inductive Piping : Script → List Kind → Label → List Subtree → Prop where
  | source {w : List Kind} :
    Piping (.call .sourceCommand 0 (.go (.stages 0))) w .singleCommandQuery []
  | stages {w : List Kind} {label : Label} {parts : List Subtree} (hq : Queried label parts) :
    Piping (.go (.stages 0)) w label parts
  | done {w : List Kind} {label : Label} {parts : List Subtree} (hq : Queried label parts) :
    Piping .done w label parts
  | wrap {w : List Kind} {label : Label} {parts : List Subtree} (hw : next w = .pipe)
    (hq : Queried label parts) :
    Piping (.step (.wrap .compositeQuery) (.token .pipe
      (.call .processingCommand 0 (.go (.stages 0))))) w label parts
  | pipe {w : List Kind} {x : Site} (hw : next w = .pipe) (hq : Queried x.label x.parts) :
    Piping (.step (.take (.ofList [.pipe])) (.call .processingCommand 0 (.go (.stages 0)))) w
      .compositeQuery [x.subtree]
  | command {w : List Kind} {x : Site} (hq : Queried x.label x.parts) :
    Piping (.call .processingCommand 0 (.go (.stages 0))) w .compositeQuery [x.subtree]
  | sync {w : List Kind} {label : Label} {parts : List Subtree} (hq : Queried label parts) :
    Piping (.step .sync (.go (.stages 0))) w label parts

/-- Behind each stage the query goes on behind a pipe, ends, or looks for the end of the stage. -/
theorem piping_stages (hq : Queried label parts) (w : List Kind) :
    Piping ((Phase.stages 0).script w) w label parts := by
  rw [Phase.script]
  split
  · rename_i hk
    rw [Bool.and_eq_true, decide_eq_true_eq] at hk
    exact .wrap hk.1 hq
  · split
    · exact .done hq
    · exact .sync hq

theorem Piping.queried (h : Piping .done w label parts) : Queried label parts := by
  cases h with
  | done hq => exact hq

theorem Piping.queried_of_go {phase : Phase} (h : Piping (.go phase) w label parts) :
    phase = .stages 0 ∧ Queried label parts := by
  cases h with
  | stages hq => exact ⟨rfl, hq⟩

/-- **A step of a query** leaves the rest of it to be done, and does not leave its rule. -/
theorem Piping.step (h : Piping (.step m q) s.coming label parts) (hl : x.label = label)
    (hp : x.parts = parts) (ht : Tracks s (x :: p)) (hs : s.stream.Proper) :
    (∀ t, m.run strategy s ≠ .error .resync t) ∧ ∀ t, m.run strategy s = .ok () t →
      ∃ y, Tracks t (y :: p) ∧ Piping q t.coming y.label y.parts := by
  cases h with
  | wrap hw hq =>
    refine ⟨fun _ hrun => (by cases hrun), fun t hrun => ?_⟩
    cases hrun
    subst hl hp
    refine ⟨_, ht.wrap .compositeQuery, .pipe (x := x.close s.cursor) ?_ hq⟩
    rw [coming_wrap]
    exact hw
  | pipe hw hq =>
    have hrun : (Move.take (.ofList [.pipe])).run strategy s = .ok () s.consume := take_run hs hw
    have halike : x.Alike (x.add (.token s.cursor)) := Site.alike_add rfl x
    refine ⟨fun t h => (by cases hrun.symm.trans h), fun t h => ?_⟩
    cases hrun.symm.trans h
    refine ⟨x.add (.token s.cursor), ht.consume, ?_⟩
    rw [halike.label_eq, halike.parts_eq, hl, hp]
    exact .command hq
  | sync hq =>
    refine ⟨fun _ => syncStage_ne_resync, fun t hrun => ?_⟩
    obtain ⟨y, hxy, hy⟩ := ht.sync_alike hrun
    refine ⟨y, hy, .stages ?_⟩
    rw [hxy.label_eq, hxy.parts_eq, hl, hp]
    exact hq

/-- **A command of a query** is one more node below that of the query. -/
theorem Piping.call {f : Nat} {res' : Result} (h : Piping (.call r f q) s.coming label parts)
    (hl : x.label = label) (hp : x.parts = parts) (ht : Tracks s (x :: p)) (hs : s.stream.Proper)
    (hb : Executes strategy limit d (opening r f s.coming) (s.enter (.ofRule r) f) res')
    (hc : closing res' = .ok () s') :
    ∃ y, Tracks s' (y :: p) ∧ Piping q s'.coming y.label y.parts := by
  have hadd {first : Kind → Option Rule} {set : KindSet}
      (hb : Executes strategy limit d (choice first set s.coming) (s.enter (.ofRule r) f) res') :
      ∃ c, c.rule? = some (Label.ofRule r).rule ∧ Tracks s' (x.add c :: p) ∧
        (x.add c).parts = parts ++ [c] := by
    obtain ⟨c, hrule, hc⟩ := hb.chosen (ht.enter (.ofRule r) f) hs hc
    have hnode : c.isNode = true := by
      cases c with
      | node => rfl
      | token | discarded => cases hrule
    exact ⟨c, hrule, hc, hp ▸ Site.parts_add hnode x⟩
  cases h with
  | source =>
    obtain ⟨c, hrule, hc, hparts⟩ := hadd hb
    refine ⟨_, hc, .stages ?_⟩
    rw [hparts, show (x.add c).label = _ from hl]
    exact .source hrule
  | command hq =>
    obtain ⟨c, hrule, hc, hparts⟩ := hadd hb
    refine ⟨_, hc, .stages ?_⟩
    rw [hparts, show (x.add c).label = _ from hl]
    exact .stage hq hrule

/-- **The nodes of a query are in order** when it has been parsed, with errors or without, and its
rule is not left before. -/
theorem Executes.piping (h : Executes strategy limit d q s res) (ht : Tracks s (x :: p))
    (hs : s.stream.Proper) (hq : Piping q s.coming x.label x.parts) :
    (∀ t, res ≠ .error .resync t) ∧ ∀ t, res = .ok () t →
      ∃ y, Tracks t (y :: p) ∧ Queried y.label y.parts := by
  -- By induction on the execution: each step of the query leaves the rest of it to be done.
  induction h generalizing x with
  | done =>
    refine ⟨fun _ h => (by cases h), fun t h => ?_⟩
    cases h
    exact ⟨x, ht, hq.queried⟩
  | @step _ m _ s s' _ hm hrun _ ih =>
    obtain ⟨y, hy, hrest⟩ := (hq.step rfl rfl ht hs).2 s' hrun
    have he := m.run_evolves hm strategy hs
    rw [hrun] at he
    exact ih hy (he.advances.proper hs) hrest
  | @stop _ _ _ _ t a _ hrun =>
    refine ⟨fun u h => ?_, fun _ h => by cases h⟩
    cases h
    exact (hq.step rfl rfl ht hs).1 t hrun
  | call _ hb hc _ _ ih =>
    obtain ⟨y, hy, hrest⟩ := hq.call rfl rfl ht hs hb hc
    have he := (hb.evolves hs).closing
    rw [hc] at he
    exact ih hy (he.advances.proper hs) hrest
  | callStop _ _ hc =>
    refine ⟨fun u h => ?_, fun _ h => by cases h⟩
    cases h
    exact closing_ne_resync hc
  | deep => exact ⟨fun _ h => (by cases h), fun _ h => by cases h⟩
  | go _ ih =>
    obtain ⟨rfl, hqueried⟩ := hq.queried_of_go
    exact ih ht hs (piping_stages hqueried _)
  | idle =>
    refine ⟨fun _ h => (by cases h), fun t h => ?_⟩
    cases h
    exact ⟨x, ht, hq.queried_of_go.2⟩

/-! ## The query of a tree -/

/-- A query that is parsed is one more node below the rule that it is called by, and its own nodes
are in order. -/
theorem Calls.queried (h : Calls strategy limit d .query 0 s (.ok () s')) (ht : Tracks s (x :: p))
    (hs : s.stream.Proper) :
    ∃ v y, s' = v.leave ∧ Tracks v (y :: x :: p) ∧ Queried y.label y.parts := by
  cases d with
  | zero => cases h
  | succ d =>
    obtain ⟨res, hb, hc⟩ := h
    have htracks := (ht.enter (.ofRule .query) 0).relabel .singleCommandQuery
    obtain ⟨hresync, hok⟩ := (hb.step_inv rfl).piping htracks hs .source
    cases res with
    | error a t =>
      cases a with
      | resync => exact absurd rfl (hresync t)
      | halt => cases hc
    | ok _ t =>
      cases hc
      obtain ⟨y, hy, hq⟩ := hok t rfl
      exact ⟨t, y, rfl, hy, hq⟩

variable {options : Options} {tokens : List Token} {t : ParseTree}

/-- **The query of a tree.** Whatever errors a parse has met, there is one node below the root of
its tree, and the nodes of this query are in order. -/
theorem statement_queried (h : parseTokens options tokens = .ok t) :
    ∃ x y : Site, t.IsWhole x.subtree ∧ x.label = .singleStatement ∧ x.parts = [y.subtree] ∧
      Queried y.label y.parts := by
  obtain ⟨d, u, s, hquery, hs, hfinish⟩ := statement_ends h
  have hproper := opened_proper tokens
  have hcall := query_calls options d tokens
  rw [hquery] at hcall
  have hevolves := hcall.evolves hproper
  obtain ⟨v, y, rfl, hy, hq⟩ := hcall.queried (opened_tracks tokens) hproper
  obtain ⟨e, cs, n, hwhole, -, -, -, hnodes⟩ :=
    ended_tree hy.leave (hevolves.advances.proper hproper) hevolves.frames_eq hs hfinish
  let root : Site := ⟨0, .singleStatement, ⟨0, n⟩, e, cs ++ [Subtree.token n]⟩
  refine ⟨root, y.close v.cursor, hwhole, rfl, ?_, hq⟩
  rw [Site.parts, List.filter_append, hnodes]
  rfl

end Parser

end PipeQuery

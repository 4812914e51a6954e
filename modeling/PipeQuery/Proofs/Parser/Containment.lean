import PipeQuery.Proofs.Parser.Parallel
import PipeQuery.Proofs.Parser.Stages
import PipeQuery.Proofs.Parser.ValidTrees

/-!
# Errors are contained

Whatever stands before a pipe, the stages behind it are parsed as if it were not there. The query
comes to the pipe with all it has met behind it; from there on it goes along with the query behind
the simplest source, stage by stage, and neither meets an error.

## Main definitions

* `Pipeline`: tokens that are read as stages
* `Between`: a state between two stages
* `Abreast`: two states between stages, with the same commands behind them

## Main results

* `Abreast.stage`, `Abreast.pipeline`: stages that are read are parsed as the same commands
* `exists_atPipe`: a query comes to the pipe, whatever stands before it
* `parse_contains`: errors are contained in their stage
-/

namespace PipeQuery.Parser

open Token (Kind KindSet)

variable {strategy strategy' : Strategy} {limit limit' d d' a a' k n k' n' f : Nat}
  {s s' t t' : State} {x x' y y' : Site} {p p' : Path} {u u' v w : List Kind} {r : Rule}
  {res res' : Result} {options : Options}

/-! ## Pipelines -/

/-- Tokens that are read as stages, each behind a pipe. -/
inductive Pipeline : List Kind → Prop where
  | nil : Pipeline []
  | cons {v w : List Kind} {m : Draft}
    (h : Reads (opening .processingCommand 0 v) (.fresh .processingCommand) v (.read m w))
    (hw : Pipeline w) : Pipeline (.pipe :: v)

/-- What the stages of a query read to the end is a pipeline. -/
theorem Reads.pipeline {m m' : Draft} (h : Reads (.go (.stages 0)) m w (.read m' [])) :
    Pipeline w := by
  -- A stage takes at least its pipe, so fewer tokens are left for the stages behind it.
  induction hl : w.length using Nat.strongRecOn generalizing m w with
  | ind l ih =>
    subst hl
    cases h with
    | go h =>
      match w with
      | [] => exact .nil
      | k :: v =>
        by_cases hk : k = .pipe
        · subst hk
          have hscript : (Phase.stages 0).script (.pipe :: v) = .step (.wrap .compositeQuery)
              (.token .pipe (.call .processingCommand 0 (.go (.stages 0)))) := rfl
          rw [hscript] at h
          cases h with
          | step hm hp =>
            cases hm
            have hp := hp.take_inv (by simp)
            cases hp with
            | call hr hq =>
              have hlen := hr.suffix.length_le
              rw [Outcome.rest_read] at hlen
              exact .cons hr (ih _ (Nat.lt_succ_of_le hlen) hq rfl)
        · -- Without a pipe no stage is read, and the end has not come yet.
          exfalso
          rw [Phase.script, next_cons] at h
          simp only [hk, decide_false, Bool.false_and, Bool.false_eq_true, if_false] at h
          split at h
          · cases h
          · cases h with
            | step hm => cases hm

theorem contains_of_processingCommandOf {k : Kind} (h : processingCommandOf k = some r) :
    Rule.processingCommandFirst.contains k = true := by
  unfold processingCommandOf at h
  split at h <;> first | decide | cases h

/-- A stage starts with the word of its command. -/
theorem Pipeline.word (h : Pipeline (.pipe :: v)) :
    Rule.processingCommandFirst.contains (next v) = true := by
  cases h with
  | cons hr =>
    rw [opening, choice] at hr
    split at hr
    · rename_i hword
      exact contains_of_processingCommandOf hword
    · cases hr with
      | step hm => cases hm

/-- What stands behind the source of a query is a pipeline. -/
theorem pipeline_of_derives (h : Derives [.rule .query] (.fromCmd :: .sourceName :: .pipe :: v)) :
    Pipeline (.pipe :: v) := by
  obtain ⟨q, hq⟩ := exists_reads h (by decide)
  cases hq.label_inv with
  | call hr hp =>
    have hsource : Reads (opening .sourceCommand 0 (.fromCmd :: .sourceName :: .pipe :: v))
        (.fresh .sourceCommand) (.fromCmd :: .sourceName :: .pipe :: v)
        (.read _ (.pipe :: v)) :=
      .call (.step rfl (.call (.step rfl .done) (.go .done))) .done
    obtain ⟨-, rfl⟩ := Outcome.read.inj (hr.unique hsource)
    exact hp.pipeline

/-! ## Between two stages -/

/-- A state between two stages of a query, where the tokens up to the place `a` are behind, and no
token has been dropped since. -/
structure Between (a : Nat) (s : State) (x : Site) (p : Path) : Prop where
  tracks : Tracks s (x :: p)
  proper : s.stream.Proper
  failure_eq : s.failure = none
  start_le : x.span.start ≤ a
  le_cursor : a ≤ s.cursor
  drops : Subtree.AllDropBefore a x.children

/-- Two states between stages of the same kinds, with the same commands behind them. -/
structure Abreast (a k n a' k' n' : Nat) (s : State) (x : Site) (p : Path) (s' : State) (x' : Site)
    (p' : Path) : Prop where
  left : Between a s x p
  right : Between a' s' x' p'
  coming_eq : s'.coming = s.coming
  size_eq : s'.arena.size + k' = s.arena.size + k
  cursor_eq : s'.cursor + n' = s.cursor + n
  commands_eq : (x'.subtree.commandsFrom (a' + 1)).map (Subtree.shift k' n') =
    (x.subtree.commandsFrom (a + 1)).map (Subtree.shift k n)

/-- The node of a query, when it goes on behind a pipe. -/
def State.pipedNode (s : State) (x : Site) : Site :=
  (x.wrap s.arena.size .compositeQuery s.cursor).add (.token s.cursor)

/-- The state of a query, when it goes on behind a pipe. -/
def State.piped (s : State) : State := (s.wrap .compositeQuery).consume

theorem Between.piped (h : Between a s x p) (hw : s.coming = .pipe :: v) :
    Between a s.piped (s.pipedNode x) p ∧ s.piped.coming = v ∧ s.piped.cursor = s.cursor + 1 := by
  have htracks : Tracks (s.wrap .compositeQuery)
      (x.wrap s.arena.size .compositeQuery s.cursor :: p) :=
    h.tracks.wrap .compositeQuery
  have hproper : (s.wrap .compositeQuery).stream.Proper := by
    rw [stream_wrap]
    exact h.proper
  have hcoming : (s.wrap .compositeQuery).stream.coming = .pipe :: v := by
    rw [stream_wrap]
    exact hw
  obtain ⟨hproper, hcoming, hcursor⟩ := hproper.consume hcoming
  have hcursor : s.piped.cursor = s.cursor + 1 := by
    rw [State.cursor, State.piped, State.consume]
    rw [hcursor, stream_wrap, State.cursor]
  refine ⟨?_, hcoming, hcursor⟩
  constructor
  case tracks =>
    have hconsume := htracks.consume
    rw [cursor_wrap] at hconsume
    exact hconsume
  case proper => exact hproper
  case failure_eq =>
    show (s.wrap .compositeQuery).failure = none
    rw [failure_wrap]
    exact h.failure_eq
  case start_le => exact h.start_le
  case le_cursor =>
    rw [hcursor]
    exact Nat.le_succ_of_le h.le_cursor
  case drops => exact ⟨h.drops, trivial, trivial⟩

theorem Between.commandsFrom_piped (h : Between a s x p) :
    (s.pipedNode x).subtree.commandsFrom (a + 1) = x.subtree.commandsFrom (a + 1) := by
  have hlabel : Label.compositeQuery.rule ≠ .processingCommand := by decide
  rw [State.pipedNode, Site.commandsFrom_add hlabel,
    Site.commandsFrom_wrap (Nat.lt_succ_of_le h.start_le) hlabel]
  exact List.append_nil _

theorem Between.size_piped (h : Between a s x p) : s.piped.arena.size = s.arena.size + 1 := by
  rw [State.piped, State.consume, Arena.size_push]
  exact h.tracks.size_wrap .compositeQuery

theorem sameErrors_piped (s : State) : s.arena.SameErrors s.piped.arena :=
  (sameErrors_wrap s .compositeQuery).trans (Arena.sameErrors_push ..)

/-- A command is one more child of the query. -/
theorem Between.leave (h : Between a s x p) (ht : OnCourse t y (x :: p))
    (hc : s.cursor ≤ t.cursor) :
    Between a t.leave (x.add (y.close t.cursor).subtree) p := by
  constructor
  case tracks => exact ht.tracks.leave
  case proper =>
    rw [stream_leave]
    exact ht.proper
  case failure_eq =>
    rw [failure_leave]
    exact ht.failure_eq
  case start_le => exact h.start_le
  case le_cursor =>
    rw [cursor_leave]
    exact Nat.le_trans h.le_cursor hc
  case drops =>
    refine Subtree.allDropBefore_append.mpr ⟨h.drops, ?_, trivial⟩
    exact Subtree.Intact.dropsBefore (x := (y.close t.cursor).subtree) ht.intact

/-- The node of a command keeps its label. -/
theorem Reads.label_of_processingCommand {m : Draft}
    (h : Reads (opening .processingCommand 0 v) (.fresh .processingCommand) v (.read m w)) :
    m.label = .ofRule .processingCommand := by
  rw [opening, choice] at h
  split at h
  · cases h with
    | call _ hp =>
      cases hp
      rfl
  · cases h with
    | step hm => cases hm

/-- The stages of a query end at the end of the input. -/
theorem Executes.stages_nil (h : Executes strategy limit d (.go (.stages f)) s res)
    (hw : s.coming = []) : res = .ok () s := by
  cases h with
  | go h =>
    rw [hw] at h
    cases h
    rfl
  | idle => rfl

/-! ## Two queries side by side -/

namespace Abreast

/-- Both go on behind a pipe. -/
theorem piped (h : Abreast a k n a' k' n' s x p s' x' p') (hw : s.coming = .pipe :: v) :
    Abreast a k n a' k' n' s.piped (s.pipedNode x) p s'.piped (s'.pipedNode x') p' ∧
      s.piped.coming = v ∧ a < s.piped.cursor ∧ a' < s'.piped.cursor := by
  have hw' : s'.coming = .pipe :: v := h.coming_eq.trans hw
  obtain ⟨hpiped, hcoming, hcursor⟩ := h.left.piped hw
  obtain ⟨hpiped', hcoming', hcursor'⟩ := h.right.piped hw'
  have hle := h.left.le_cursor
  have hle' := h.right.le_cursor
  refine ⟨?_, hcoming, by omega, by omega⟩
  constructor
  case left => exact hpiped
  case right => exact hpiped'
  case coming_eq => exact hcoming'.trans hcoming.symm
  case size_eq =>
    have hsize := h.size_eq
    rw [h.left.size_piped, h.right.size_piped]
    omega
  case cursor_eq =>
    have hadd := h.cursor_eq
    omega
  case commands_eq =>
    rw [h.left.commandsFrom_piped, h.right.commandsFrom_piped]
    exact h.commands_eq

/-- Both open a rule; it has met no error. -/
theorem enter (h : Abreast a k n a' k' n' s x p s' x' p') (hr : s.recovering = false)
    (hr' : s'.recovering = false) (r : Rule) (f : Nat) :
    Parallel k n k' n' (s.enter (.ofRule r) f) (.opened s.arena.size (.ofRule r) s.cursor) (x :: p)
      (s'.enter (.ofRule r) f) (.opened s'.arena.size (.ofRule r) s'.cursor) (x' :: p') := by
  have hsize := h.size_eq
  constructor
  case left => exact h.left.tracks.enter_onCourse h.left.proper hr h.left.failure_eq r f
  case right => exact h.right.tracks.enter_onCourse h.right.proper hr' h.right.failure_eq r f
  case coming_eq => exact h.coming_eq
  case size_eq =>
    rw [State.enter, State.enter, Arena.size_openNode, Arena.size_openNode]
    omega
  case cursor_eq => exact h.cursor_eq
  case site_eq => rw [Site.shift_opened, Site.shift_opened, h.size_eq, h.cursor_eq]

/-- Both have the same command as one more child. -/
theorem leave (h : Abreast a k n a' k' n' s x p s' x' p')
    (hp : Parallel k n k' n' t y (x :: p) t' y' (x' :: p'))
    (hx : x.label.rule ≠ .processingCommand) (hx' : x'.label.rule ≠ .processingCommand)
    (hy : y.label.rule = .processingCommand) (ha : a < s.cursor) (ha' : a' < s'.cursor)
    (hstart : y.span.start = s.cursor) (hc : s.cursor ≤ t.cursor) (hc' : s'.cursor ≤ t'.cursor) :
    Abreast a k n a' k' n' t.leave (x.add (y.close t.cursor).subtree) p
      t'.leave (x'.add (y'.close t'.cursor).subtree) p' := by
  have hlabel : y'.label = y.label := by
    show (y'.shift k' n').label = (y.shift k n).label
    rw [hp.site_eq]
  have hstart' : y'.span.start = s'.cursor := by
    have hadd : y'.span.start + n' = y.span.start + n := by
      show (y'.shift k' n').span.start = (y.shift k n).span.start
      rw [hp.site_eq]
    have hcursor := h.cursor_eq
    omega
  constructor
  case left => exact h.left.leave hp.left hc
  case right => exact h.right.leave hp.right hc'
  case coming_eq =>
    rw [coming_leave, coming_leave]
    exact hp.coming_eq
  case size_eq =>
    rw [Parallel.size_leave, Parallel.size_leave]
    exact hp.size_eq
  case cursor_eq =>
    rw [cursor_leave, cursor_leave]
    exact hp.cursor_eq
  case commands_eq =>
    -- Each side gets one command more, and the two are the same up to where they stand.
    have hcommand : (y.close t.cursor).subtree.commandsFrom (a + 1) =
        [(y.close t.cursor).subtree] :=
      Site.commandsFrom_command hy (hstart ▸ ha)
    have hcommand' : (y'.close t'.cursor).subtree.commandsFrom (a' + 1) =
        [(y'.close t'.cursor).subtree] :=
      Site.commandsFrom_command (hlabel ▸ hy) (hstart' ▸ ha')
    rw [Site.commandsFrom_add hx, Site.commandsFrom_add hx', hcommand, hcommand', List.map_append,
      List.map_append, h.commands_eq, List.map_singleton, List.map_singleton,
      ← Site.shift_subtree, ← Site.shift_subtree, Site.shift_close, Site.shift_close, hp.site_eq,
      hp.cursor_eq]

/-- **A stage that is read is parsed by both** as the same command. -/
theorem stage {m : Draft} (h : Abreast a k n a' k' n' s x p s' x' p')
    (hw : s.coming = .pipe :: v)
    (hr : Reads (opening .processingCommand 0 v) (.fresh .processingCommand) v (.read m w))
    (he : Executes strategy limit d (.go (.stages 0)) s res) (hd : 2 + 4 * s.coming.length ≤ d)
    (he' : Executes strategy' limit' d' (.go (.stages 0)) s' res')
    (hd' : 2 + 4 * s.coming.length ≤ d') :
    ∃ t y t' y', Executes strategy limit d (.go (.stages 0)) t res ∧
      Executes strategy' limit' d' (.go (.stages 0)) t' res' ∧
      Abreast a k n a' k' n' t y p t' y' p' ∧ t.coming = w ∧ s.arena.SameErrors t.arena := by
  obtain ⟨hpiped, hcoming, ha, ha'⟩ := h.piped hw
  have hcoming' : s'.piped.coming = v := hpiped.coming_eq.trans hcoming
  have hheight : Rule.processingCommand.height = 5 := rfl
  rw [hw, List.length_cons] at hd hd'
  -- Both carry out the command, and go on behind it.
  have hcall : Executes strategy limit d (.call .processingCommand 0 (.go (.stages 0)))
      s.piped res :=
    he.pipe_inv h.left.proper hw
  have hcall' : Executes strategy' limit' d' (.call .processingCommand 0 (.go (.stages 0)))
      s'.piped res' :=
    he'.pipe_inv h.right.proper (h.coming_eq.trans hw)
  obtain ⟨d₁, t, hb, hq⟩ := hcall.call_reads hpiped.left.tracks hpiped.left.proper rfl
    hpiped.left.failure_eq (hcoming.symm ▸ hr) (by rw [hcoming]; omega)
  obtain ⟨d₁', t', hb', hq'⟩ := hcall'.call_reads hpiped.right.tracks hpiped.right.proper rfl
    hpiped.right.failure_eq (hcoming'.symm ▸ hr) (by rw [hcoming']; omega)
  have hadv : s.piped.cursor ≤ t.cursor := (hb.evolves hpiped.left.proper).advances.cursor_le
  have hadv' : s'.piped.cursor ≤ t'.cursor := (hb'.evolves hpiped.right.proper).advances.cursor_le
  rw [hcoming] at hb
  rw [hcoming'] at hb'
  obtain ⟨y, y', hp, hlabel, hstart, hw', hsame⟩ :=
    hr.parallel rfl (hpiped.enter rfl rfl .processingCommand 0) rfl hcoming hb hb'
  have hrule : y.label.rule = .processingCommand := by
    rw [hlabel, hr.label_of_processingCommand]
    rfl
  have hquery : Label.compositeQuery.rule ≠ .processingCommand := by decide
  have hleave := hpiped.leave hp hquery hquery hrule ha ha' hstart hadv hadv'
  refine ⟨_, _, _, _, hq, hq', hleave, ?_, ?_⟩
  · rw [coming_leave]
    exact hw'
  · have hcommand := (Arena.sameErrors_openNode ..).trans hsame
    exact ((sameErrors_piped s).trans hcommand).trans (sameErrors_leave t)

/-- **A pipeline is parsed by both** as the same commands, and no error is met. -/
theorem pipeline (hw : Pipeline w) (h : Abreast a k n a' k' n' s x p s' x' p')
    (hcoming : s.coming = w)
    (he : Executes strategy limit d (.go (.stages 0)) s res) (hd : 2 + 4 * s.coming.length ≤ d)
    (he' : Executes strategy' limit' d' (.go (.stages 0)) s' res')
    (hd' : 2 + 4 * s.coming.length ≤ d') :
    ∃ t y t' y', res = .ok () t ∧ res' = .ok () t' ∧ Abreast a k n a' k' n' t y p t' y' p' ∧
      t.coming = [] ∧ s.arena.SameErrors t.arena := by
  induction hw generalizing s x s' x' with
  | nil =>
    have hres := he.stages_nil hcoming
    have hres' := he'.stages_nil (h.coming_eq.trans hcoming)
    exact ⟨s, x, s', x', hres, hres', h, hcoming, .refl _⟩
  | cons hr _ ih =>
    obtain ⟨t, y, t', y', hq, hq', hnext, hw, hsame⟩ := h.stage hcoming hr he hd he' hd'
    have hlen := hr.suffix.length_le
    rw [Outcome.rest_read] at hlen
    rw [hcoming, List.length_cons] at hd hd'
    obtain ⟨u, z, u', z', hu, hu', hend, hnil, hsame'⟩ :=
      ih hnext hw hq (by rw [hw]; omega) hq' (by rw [hw]; omega)
    exact ⟨u, z, u', z', hu, hu', hend, hnil, hsame.trans hsame'⟩

end Abreast

/-! ## Statements -/

/-- The root of a statement. -/
def statementRoot : Site := ⟨0, .singleStatement, ⟨0, 0⟩, none, []⟩

/-- What is left to do of a statement when its query has ended. -/
def endOfStatement (res : Result) : Result :=
  closing (match closing res with
    | .ok () s => expectOneOf .recover (.ofList [.endOfInput]) s
    | .error a s => .error a s)

/-- A query in front of a pipe, with the tokens before it behind. -/
structure AtPipe (a : Nat) (v : List Kind) (s : State) (x : Site) : Prop where
  between : Between a s x [statementRoot]
  coming_eq : s.coming = .pipe :: v
  cursor_eq : s.cursor = a
  errors : ErrorsBehind s
  commands_eq : x.subtree.commandsFrom (a + 1) = []

theorem errorsBehind_start (tokens : List Token) : ErrorsBehind (.start (.ofList tokens)) := by
  intro id e he
  cases he

/-- A statement whose query parses its source. -/
def atSource (tokens : List Token) : State :=
  ((opened tokens).enter (.ofRule .query) 0).relabel .singleCommandQuery

/-- A statement parses the source and the stages of its query, and then the end of the input. -/
theorem parseTokens_executes {tokens : List Token} (hs : options.strategy = .recover)
    (hne : (TokenStream.ofList tokens).coming ≠ []) (hd : 2 ≤ options.maxDepth) :
    ∃ res, Executes .recover options.maxDepth (options.maxDepth - 2)
        (.call .sourceCommand 0 (.go (.stages 0))) (atSource tokens) res ∧
      parseTokens options tokens = finish (Result.state (endOfStatement res)) := by
  obtain ⟨d, hdepth⟩ : ∃ d, options.maxDepth = d + 2 := ⟨options.maxDepth - 2, by omega⟩
  have hcall := query_calls options (d + 1) tokens
  rw [hs] at hcall
  obtain ⟨res, hquery, hclosing⟩ := hcall
  have hdepth' : options.maxDepth - 2 = d := by omega
  refine ⟨res, ?_, ?_⟩
  · rw [hdepth']
    exact hquery.step_inv rfl
  · rw [parseTokens, run_eq, isEmpty_eq_false hne, if_neg Bool.false_ne_true, hdepth,
      parseRule_statement, hclosing, hs]
    rfl

/-- What has been read of the tokens to come is how far the parse has come. -/
theorem Evolves.cursor_eq (he : Evolves s t) (hs : s.stream.Proper) (hw : s.coming = u ++ w)
    (ht : t.coming = w) : t.cursor = s.cursor + u.length := by
  have hadd := hs.cursor_add
  have hadd' := (he.advances.proper hs).cursor_add
  rw [← State.coming, hw, List.length_append, TokenStream.size] at hadd
  rw [← State.coming, ht, TokenStream.size, he.advances.tokens_eq] at hadd'
  rw [State.cursor, State.cursor]
  omega

/-- **A query comes to the pipe**, whatever stands before it. -/
theorem exists_atPipe {tokens : List Token} (hs : options.strategy = .recover)
    (hw : (TokenStream.ofList tokens).coming = u ++ .pipe :: v) (hleft : .leftBracket ∉ u)
    (hright : .rightBracket ∉ u) (hv : Pipeline (.pipe :: v))
    (hd : 4 * u.length + 8 ≤ options.maxDepth) :
    ∃ s x res, Executes .recover options.maxDepth (options.maxDepth - 2) (.go (.stages 0)) s res ∧
      AtPipe u.length v s x ∧
      parseTokens options tokens = finish (Result.state (endOfStatement res)) := by
  have hne : (TokenStream.ofList tokens).coming ≠ [] := by
    rw [hw]
    exact List.append_ne_nil_of_right_ne_nil _ (List.cons_ne_nil _ _)
  obtain ⟨res, hquery, hparse⟩ := parseTokens_executes hs hne (by omega)
  have hbefore : BeforePipe u v (atSource tokens) :=
    ⟨opened_proper tokens, hw, List.mem_cons_self, hleft, hright, hv.word⟩
  have hgoing : (atSource tokens).Going := ⟨rfl, fun h => by cases h⟩
  -- The source ends in front of the pipe, and so does each stage before it.
  obtain ⟨t, u', ht, hu, hbefore', hgoing', he⟩ := hquery.call_stays hbefore hgoing trivial
    (by rw [Rule.height]; omega)
  have hlen := hu.length_le
  obtain ⟨s, hstages, hpipe, hgoing'', he'⟩ := ht.reaches_pipe hbefore' hgoing' he.frames_eq
    (by omega)
  have he := he.trans he'
  have hcursor : s.cursor = u.length :=
    (he.cursor_eq hbefore.proper hw hpipe.coming_eq).trans (Nat.zero_add _)
  -- All that the query has met is behind it.
  have htracks : Tracks (atSource tokens)
      [⟨1, .singleCommandQuery, ⟨0, 0⟩, none, []⟩, statementRoot] :=
    ((opened_tracks tokens).enter (.ofRule .query) 0).relabel .singleCommandQuery
  obtain ⟨x, hx, hstart, hup⟩ := he.tracks htracks
  have hup : Site.UpTo x s.cursor := hup hbefore.proper rfl
  have hstart : x.span.start = 0 := hstart
  refine ⟨s, x, res, hstages, ?_, hparse⟩
  constructor
  case between =>
    constructor
    case tracks => exact hx
    case proper => exact hpipe.proper
    case failure_eq => exact hgoing''.failure_eq
    case start_le => omega
    case le_cursor => exact Nat.le_of_eq hcursor.symm
    case drops =>
      rw [← hcursor]
      exact Subtree.AllTile.allDropBefore hup
  case coming_eq => exact hpipe.coming_eq
  case cursor_eq => exact hcursor
  case errors =>
    refine errorsBehind_invariant.evolves he ?_
    refine errorsBehind_invariant.edit (.relabel _ _) ?_
    refine errorsBehind_invariant.enter _ _ ?_
    exact errorsBehind_invariant.enter _ _ (errorsBehind_start _)
  case commands_eq =>
    rw [← Site.commandsFrom_close (by omega) s.cursor]
    exact hup.tiles.commandsFrom_eq_nil (by omega)

theorem endOfStatement_ok (hs : s.stream.Proper) (hnil : s.coming = []) :
    endOfStatement (.ok () s) = .ok () s.leave.consume.leave := by
  have hk : s.leave.kindAt 1 = .endOfInput := by
    rw [kindAt_leave, kindAt_one hs, hnil, next_nil]
  show closing (expectOneOf .recover (.ofList [.endOfInput]) s.leave) = _
  rw [expectOneOf_eq, hk, if_pos (by simp)]
  rfl

/-- An error of a tree is the error of one of its nodes. -/
theorem exists_errorAt {t : ParseTree} {e : SyntaxError} (h : finish s = .ok t)
    (he : e ∈ t.diagnostics) : ∃ id, s.arena.errorAt id = some e := by
  obtain ⟨hnodes, -⟩ := nodes_of_finish h
  rw [ParseTree.diagnostics, List.mem_mergeSort, List.mem_filterMap] at he
  obtain ⟨id, -, he⟩ := he
  refine ⟨id, ?_⟩
  rw [Arena.errorAt, ← hnodes]
  rw [ParseTree.node] at he
  cases hnode : t.nodes[id]? with
  | none =>
    rw [hnode] at he
    cases he
  | some node =>
    rw [hnode] at he
    exact he

/-- **The tree of a query that comes to the end of the input**: the errors, the dropped tokens and
the commands are those of the query. -/
theorem Between.tree (h : Between a s x [statementRoot]) (hnil : s.coming = []) :
    ∃ t, finish (Result.state (endOfStatement (.ok () s))) = .ok t ∧
      (∀ e ∈ t.diagnostics, ∃ id, s.arena.errorAt id = some e) ∧
      (∀ id < t.size, ∀ i, .discarded i ∈ t.children id → i < a) ∧
      t.commandsFrom (a + 1) = x.subtree.commandsFrom (a + 1) := by
  rw [endOfStatement_ok h.proper hnil]
  have hfailure : s.leave.consume.leave.failure = none := by
    rw [failure_leave]
    exact (failure_leave s).trans h.failure_eq
  obtain ⟨t, ht, hwhole, -⟩ := finish_of_builds h.tracks.leave.consume.leave_root hfailure
  have hwhole : t.IsWhole (.node 0 .singleStatement ⟨0, s.leave.consume.cursor⟩ none
      [(x.close s.cursor).subtree, .token s.cursor]) := by
    simpa [Site.subtree, Site.close, Path.add, statementRoot] using hwhole
  refine ⟨t, ht, ?_, ?_, ?_⟩
  · intro e he
    obtain ⟨id, hid⟩ := exists_errorAt ht he
    have hconsume : s.leave.arena.SameErrors s.leave.consume.arena := Arena.sameErrors_push ..
    have hsame := ((sameErrors_leave s).trans hconsume).trans (sameErrors_leave s.leave.consume)
    exact ⟨id, (hsame.errorAt_eq id).symm.trans hid⟩
  · intro id hid i hi
    exact hwhole.lt_of_discarded ⟨h.drops, trivial, trivial⟩ hid hi
  · rw [hwhole.commandsFrom_eq, ← Site.commandsFrom_close (Nat.lt_succ_of_le h.start_le) s.cursor]
    simp [Subtree.commandsFrom, Subtree.commands, Subtree.commandsOf, Label.rule]

/-- The commands behind a pipe are the same behind whatever stands before it. -/
theorem commands_agree {tokens tokens' : List Token} (hs : options.strategy = .recover)
    (hw : (TokenStream.ofList tokens).coming = u ++ .pipe :: v)
    (hw' : (TokenStream.ofList tokens').coming = u' ++ .pipe :: v)
    (hu : .leftBracket ∉ u ∧ .rightBracket ∉ u) (hu' : .leftBracket ∉ u' ∧ .rightBracket ∉ u')
    (hv : Pipeline (.pipe :: v)) (hd : 4 * u.length + 8 ≤ options.maxDepth)
    (hd' : 4 * u'.length + 8 ≤ options.maxDepth) (hdv : 4 * v.length + 8 ≤ options.maxDepth) :
    ∃ t, parseTokens options tokens = .ok t ∧ (∀ e ∈ t.diagnostics, e.index ≤ u.length) ∧
      (∀ id < t.size, ∀ i, .discarded i ∈ t.children id → i < u.length) ∧
      ∃ t', parseTokens options tokens' = .ok t' ∧ ∃ k k',
        (t.commandsFrom (u.length + 1)).map (Subtree.shift k u'.length) =
          (t'.commandsFrom (u'.length + 1)).map (Subtree.shift k' u.length) := by
  obtain ⟨s, x, res, he, hpipe, hparse⟩ := exists_atPipe hs hw hu.1 hu.2 hv hd
  obtain ⟨s', x', res', he', hpipe', hparse'⟩ := exists_atPipe hs hw' hu'.1 hu'.2 hv hd'
  -- Both parses come to the pipe with no command behind it, and go on side by side from there.
  have habreast : Abreast u.length s'.arena.size u'.length u'.length s.arena.size u.length
      s x [statementRoot] s' x' [statementRoot] := by
    constructor
    case left => exact hpipe.between
    case right => exact hpipe'.between
    case coming_eq => exact hpipe'.coming_eq.trans hpipe.coming_eq.symm
    case size_eq => exact Nat.add_comm ..
    case cursor_eq =>
      rw [hpipe.cursor_eq, hpipe'.cursor_eq]
      exact Nat.add_comm ..
    case commands_eq =>
      rw [hpipe.commands_eq, hpipe'.commands_eq]
      rfl
  have hbudget : 2 + 4 * s.coming.length ≤ options.maxDepth - 2 := by
    rw [hpipe.coming_eq, List.length_cons]
    omega
  obtain ⟨t, y, t', y', rfl, rfl, hend, hnil, hsame⟩ :=
    Abreast.pipeline hv habreast hpipe.coming_eq he hbudget he' hbudget
  obtain ⟨T, hT, herrors, hdropped, hcommands⟩ := hend.left.tree hnil
  obtain ⟨T', hT', -, -, hcommands'⟩ := hend.right.tree (hend.coming_eq.trans hnil)
  refine ⟨T, hparse.trans hT, ?_, hdropped, T', hparse'.trans hT', s'.arena.size, s.arena.size, ?_⟩
  · intro e he
    obtain ⟨id, hid⟩ := herrors e he
    rw [hsame.errorAt_eq] at hid
    rw [← hpipe.cursor_eq]
    exact hpipe.errors id e hid
  · rw [hcommands, hcommands']
    exact hend.commands_eq.symm

/-- What comes of tokens that end with their only end of input. -/
theorem coming_of_not_mem (ts : List Token) {eof : Token}
    (hts : .endOfInput ∉ ts.map Token.kind) (heof : eof.isEof = true) :
    (TokenStream.ofList (ts ++ [eof])).coming = ts.map Token.kind := by
  refine TokenStream.coming_ofList_concat ?_ heof
  intro t ht
  rw [Bool.eq_false_iff, ne_eq, Token.isEof_iff]
  intro hk
  exact hts (hk ▸ List.mem_map_of_mem ht)

/-- **Errors are contained in their stage.** Whatever stands before a pipe, errors are told of no
token behind it and no token behind it is dropped, and the commands behind it are parsed as they are
behind the simplest source. -/
theorem parse_contains (options : Options) (A B source : List Token) (pipe eof : Token)
    (hs : options.strategy = .recover)
    (hA : ∀ t ∈ A, t.kind ∉ [.endOfInput, .leftBracket, .rightBracket])
    (hB : ∀ t ∈ B, t.isEof = false) (hpipe : pipe.kind = .pipe) (heof : eof.isEof = true)
    (hsource : source.map Token.kind = [.fromCmd, .sourceName, .pipe])
    (hd : 4 * (A.length + B.length + 1) + 12 ≤ options.maxDepth)
    (h : Derives [.rule .query] ((source ++ B).map Token.kind)) :
    ∃ t, parseTokens options (A ++ [pipe] ++ B ++ [eof]) = .ok t ∧
      (∀ e ∈ t.diagnostics, e.index ≤ A.length) ∧
      (∀ id < t.size, ∀ i, .discarded i ∈ t.children id → i < A.length) ∧
      ∃ t', parseTokens options (source ++ B ++ [eof]) = .ok t' ∧ ∃ k k',
        (t.commandsFrom (A.length + 1)).map (Subtree.shift k 2) =
          (t'.commandsFrom 3).map (Subtree.shift k' A.length) := by
  have hkinds (k : Kind) (hk : k ∈ [.endOfInput, .leftBracket, .rightBracket]) :
      k ∉ A.map Token.kind := by
    intro hmem
    obtain ⟨t, ht, rfl⟩ := List.mem_map.mp hmem
    exact hA t ht hk
  have heofB : .endOfInput ∉ B.map Token.kind := by
    intro hmem
    obtain ⟨t, ht, hk⟩ := List.mem_map.mp hmem
    have hfalse := hB t ht
    rw [Token.isEof_iff.mpr hk] at hfalse
    cases hfalse
  have hmap : (A ++ [pipe] ++ B).map Token.kind =
      A.map Token.kind ++ .pipe :: B.map Token.kind := by
    simp [hpipe]
  have hmap' : (source ++ B).map Token.kind =
      [.fromCmd, .sourceName] ++ .pipe :: B.map Token.kind := by
    simp [hsource]
  have hw := coming_of_not_mem (A ++ [pipe] ++ B) (by
    rw [hmap]
    simp [heofB, hkinds .endOfInput]) heof
  have hw' := coming_of_not_mem (source ++ B) (by
    rw [hmap']
    simp [heofB]) heof
  rw [hmap] at hw
  rw [hmap'] at hw' h
  have hlen : (A.map Token.kind).length = A.length := List.length_map _
  have hlen' : (B.map Token.kind).length = B.length := List.length_map _
  have hagree := commands_agree hs hw hw' ⟨hkinds _ (by decide), hkinds _ (by decide)⟩
    (by decide) (pipeline_of_derives h) (by omega) (by simp; omega) (by omega)
  rw [hlen] at hagree
  exact hagree

/-- The soup `| where a + ) , sort` before `| where a > 1 | limit 1` does not touch the two commands
behind it. -/
theorem parse_contains_soup :
    let A : List Token :=
      [Kind.pipe, .whereCmd, .name, .plus, .rightParen, .comma, .sortCmd].map Token.ofKind
    let B : List Token := [Kind.whereCmd, .name, .greater, .integer, .pipe, .limitCmd,
      .integer].map Token.ofKind
    let source : List Token := [Kind.fromCmd, .sourceName, .pipe].map Token.ofKind
    ((∀ t ∈ A, t.kind ∉ [.endOfInput, .leftBracket, .rightBracket]) ∧
      (∀ t ∈ B, t.isEof = false) ∧ Derives [.rule .query] ((source ++ B).map Token.kind)) ∧
    ∃ t, parseTokens ⟨72, .recover⟩ (A ++ [.ofKind .pipe] ++ B ++ [.ofKind .endOfInput]) = .ok t ∧
      (t.isValid = false ∧ (t.commandsFrom 8).length = 2) ∧
      (∀ e ∈ t.diagnostics, e.index ≤ 7) ∧
      (∀ id < t.size, ∀ i, .discarded i ∈ t.children id → i < 7) ∧
      ∃ t', parseTokens ⟨72, .recover⟩ (source ++ B ++ [.ofKind .endOfInput]) = .ok t' ∧ ∃ k k',
        (t.commandsFrom 8).map (Subtree.shift k 2) =
          (t'.commandsFrom 3).map (Subtree.shift k' 7) := by
  intro A B source
  have hA : ∀ t ∈ A, t.kind ∉ [.endOfInput, .leftBracket, .rightBracket] := by decide
  have hB : ∀ t ∈ B, t.isEof = false := by decide
  have hderives : Derives [.rule .query] ((source ++ B).map Token.kind) := by
    obtain ⟨t, ht, hv⟩ : ∃ t, parseTokens ⟨72, .recover⟩ (source ++ B ++ [.ofKind .endOfInput]) =
        .ok t ∧ t.isValid = true := by
      decide +kernel
    obtain ⟨x, -, hx⟩ := statement_groups ht hv
    exact hx.derives.statement_inv
  obtain ⟨t, ht, hcount⟩ : ∃ t, parseTokens ⟨72, .recover⟩
      (A ++ [.ofKind .pipe] ++ B ++ [.ofKind .endOfInput]) = .ok t ∧
        (t.isValid = false ∧ (t.commandsFrom 8).length = 2) := by
    decide +kernel
  obtain ⟨t', ht', hrest⟩ := parse_contains ⟨72, .recover⟩ A B source (.ofKind .pipe)
    (.ofKind .endOfInput) rfl hA hB rfl rfl rfl (by decide) hderives
  cases ht.symm.trans ht'
  exact ⟨⟨hA, hB, hderives⟩, t, ht, hcount, hrest⟩

end PipeQuery.Parser

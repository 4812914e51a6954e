import PipeQuery.Proofs.Parser.Confined
import PipeQuery.Proofs.Parser.Depth
import PipeQuery.Proofs.Parser.Endings

/-!
# Errors stay in their stage

While a query is open, a pipe is a place to go on. Whatever a rule within a stage is given, it stops
in front of the pipe behind its stage: no rule but the query matches a pipe, looking for a place to
go on stops there, and a pipe is not taken for a stray token, since no rule waits for the command
word behind it.

## Main definitions

* `BeforePipe`: a state within a stage, with a pipe and a command to come
* `Stays`: a part of a parse that ends in front of the pipe
* `StepStays`: a step of a script that does so, and leaves the rest of the script confined

## Main results

* `recover_stays`: looking for a place to go on stops in front of the pipe
* `Executes.stays`: a confined script stays in its stage
* `Executes.reaches_pipe`: the stages of a query, up to the pipe
-/

namespace PipeQuery.Parser

open Token (Kind KindSet)
open Script

/-! ## In front of the pipe -/

/-- A state in a query, with the tokens of the kinds `u` to come before a pipe and a processing
command. There is no bracket among them. -/
structure BeforePipe (u v : List Kind) (s : State) : Prop where
  proper : s.stream.Proper
  coming_eq : s.coming = u ++ .pipe :: v
  query_mem : .query ∈ s.frames.map Frame.rule
  not_left : .leftBracket ∉ u
  not_right : .rightBracket ∉ u
  word : Rule.processingCommandFirst.contains (next v) = true

/-- A part of a parse that has not halted and ends in front of the pipe. -/
def Stays (u v : List Kind) (res : Result) : Prop :=
  (∀ s, res ≠ .error .halt s) ∧ ∃ u', u' <:+ u ∧ BeforePipe u' v res.state

variable {limit d b f : Nat} {m : Move} {p : Script} {r : Rule} {set : KindSet} {s t : State}
  {res : Result} {u u' v w : List Kind}

theorem BeforePipe.evolves (h : BeforePipe u v s) (he : Evolves s t) (hu : u' <:+ u)
    (hcoming : t.coming = u' ++ .pipe :: v) : BeforePipe u' v t := by
  constructor
  case proper => exact he.advances.proper h.proper
  case coming_eq => exact hcoming
  case query_mem =>
    rw [he.frames_eq]
    exact h.query_mem
  case not_left => exact fun hmem => h.not_left (hu.mem hmem)
  case not_right => exact fun hmem => h.not_right (hu.mem hmem)
  case word => exact h.word

/-- What leaves the tokens alone. -/
theorem BeforePipe.congr (h : BeforePipe u v s) (he : Evolves s t) (hstream : t.stream = s.stream) :
    BeforePipe u v t := by
  refine h.evolves he (List.suffix_refl u) ?_
  rw [coming_eq_of_stream hstream, h.coming_eq]

theorem BeforePipe.stays_ok (h : BeforePipe u' v s) (hu : u' <:+ u) : Stays u v (.ok () s) :=
  ⟨(fun _ hs => by cases hs), u', hu, h⟩

theorem BeforePipe.stays_resync (h : BeforePipe u' v s) (hu : u' <:+ u) :
    Stays u v (.error .resync s) :=
  ⟨(fun _ hs => by cases hs), u', hu, h⟩

theorem BeforePipe.enter (h : BeforePipe u v s) (label : Label) (floor : Nat) :
    BeforePipe u v (s.enter label floor) :=
  ⟨h.proper, h.coming_eq, List.mem_cons_of_mem _ h.query_mem, h.not_left, h.not_right, h.word⟩

theorem contains_foldl_follow (rules : List Rule) (set : KindSet) (k : Kind) :
    (rules.foldl (fun set (r : Rule) => set ∪ r.follow) set).contains k =
      (set.contains k || rules.any fun r => r.follow.contains k) := by
  induction rules generalizing set with
  | nil => simp
  | cons r rules ih => simp [ih, Bool.or_assoc]

/-- The kinds at which some open rule can go on. -/
theorem contains_resyncSet (s : State) (k : Kind) :
    s.resyncSet.contains k = ((s.frames.map Frame.rule).any (fun r => r.follow.contains k) &&
      !decide (.endOfInput = k)) := by
  have hset : s.resyncSet =
      ((s.frames.map Frame.rule).foldl (fun set (r : Rule) => set ∪ r.follow) ∅).erase
        .endOfInput := by
    rw [State.resyncSet, List.foldl_map]
  rw [hset, KindSet.contains_erase, contains_foldl_follow, KindSet.contains_empty, Bool.false_or]

/-- **While a query is open, a pipe is a place to go on.** -/
theorem contains_resyncSet_pipe (h : .query ∈ s.frames.map Frame.rule) :
    s.resyncSet.contains .pipe = true := by
  have hany : (s.frames.map Frame.rule).any (fun r => r.follow.contains .pipe) = true :=
    List.any_eq_true.mpr ⟨.query, h, by decide⟩
  rw [contains_resyncSet, hany]
  rfl

/-! ## Looking for a place to go on -/

/-- Dropping tokens stops in front of a pipe. -/
theorem discardUntil_stops (hs : s.stream.Proper) (hw : s.coming = u ++ .pipe :: v) {stop : KindSet}
    (hstop : stop.contains .pipe = true) (id : NodeId) (n : Nat) :
    ∃ u', u' <:+ u ∧ (s.discardUntil id stop n).coming = u' ++ .pipe :: v := by
  -- On the number of tokens that may be dropped. The part `u` before the pipe gets shorter.
  induction n generalizing s u with
  | zero => exact ⟨u, List.suffix_refl u, hw⟩
  | succ n ih =>
    rw [State.discardUntil]
    split
    · exact ⟨u, List.suffix_refl u, hw⟩
    · rename_i hk
      cases u with
      | nil =>
        -- The pipe itself is not dropped.
        refine absurd ?_ hk
        rw [kindAt_one hs, hw, List.nil_append, next_cons, hstop, Bool.or_true]
      | cons k u =>
        obtain ⟨hs', hw', -⟩ := hs.consume hw
        obtain ⟨u', hu', hcoming⟩ := ih (s := s.discard id) hs' hw'
        exact ⟨u', hu'.trans (List.suffix_cons k u), hcoming⟩

/-- **Looking for a place to go on stops in front of the pipe.** -/
theorem recover_stays (h : BeforePipe u v s) :
    ∃ t u', recover s = .ok () t ∧ u' <:+ u ∧ BeforePipe u' v t := by
  obtain ⟨u', hu, hcoming⟩ := discardUntil_stops (s := { s with recovering := true }) h.proper
    h.coming_eq (contains_resyncSet_pipe h.query_mem) s.node s.stream.remaining
  have he := recover_evolves s
  have hadv := discardUntil_advances s.node s.resyncSet s.stream.remaining
    { s with recovering := true }
  rw [recover] at he ⊢
  generalize State.discardUntil s.node s.resyncSet s.stream.remaining
    { s with recovering := true } = t at hcoming hadv he ⊢
  have hk : t.kindAt 1 ≠ .endOfInput := by
    have hproper : t.stream.Proper := hadv.proper h.proper
    rw [kindAt_one hproper]
    intro heof
    cases u' with
    | nil =>
      rw [hcoming] at heof
      cases heof
    | cons k u' =>
      rw [hcoming] at heof
      exact ne_of_coming hproper hcoming heof
  -- The search has not come to the end of the input, so the parse is not given up.
  have hif : (decide (t.kindAt 1 = .endOfInput) && decide (s.cursor < t.cursor)) = false := by
    rw [decide_eq_false hk, Bool.false_and]
  simp only [hif, Bool.false_eq_true, if_false] at he ⊢
  exact ⟨t, u', rfl, hu, h.evolves he hu hcoming⟩

/-- A rule that stays in front of the pipe is left there. -/
theorem Stays.closing (h : Stays u v res) :
    ∃ t u', closing res = .ok () t ∧ u' <:+ u ∧ t.coming = u' ++ .pipe :: v := by
  obtain ⟨hres, u', hu, hbefore⟩ := h
  cases res with
  | ok _ s =>
    refine ⟨s.leave, u', rfl, hu, ?_⟩
    rw [coming_leave]
    exact hbefore.coming_eq
  | error a s =>
    cases a with
    | halt => exact absurd rfl (hres s)
    | resync =>
      obtain ⟨t, u'', ht, hu', hcoming⟩ := recover_stays hbefore
      refine ⟨t.leave, u'', ?_, hu'.trans hu, ?_⟩
      · have ht : recover s = .ok () t := ht
        rw [Parser.closing, ht]
      · rw [coming_leave]
        exact hcoming.coming_eq

/-- A call of a rule that stays in front of the pipe. -/
theorem BeforePipe.call (h : BeforePipe u v s) (hres : Stays u v res)
    (he : Evolves (s.enter (.ofRule r) f) res.state) :
    ∃ t u', closing res = .ok () t ∧ u' <:+ u ∧ BeforePipe u' v t := by
  obtain ⟨t, u', ht, hu, hcoming⟩ := hres.closing
  have hcall := he.closing
  rw [ht] at hcall
  exact ⟨t, u', ht, hu, h.evolves hcall hu hcoming⟩

/-! ## Steps -/

/-- A parse that recovers goes on behind an error that it reports. -/
theorem report_recover (id : NodeId) (e : SyntaxError) (s : State) :
    ∃ t, report .recover id e s = .ok () t ∧ t.stream = s.stream := by
  rw [report]
  split
  · exact ⟨s, rfl, rfl⟩
  · exact ⟨_, rfl, rfl⟩

theorem fail_recover (cause : SyntaxError.Cause) (expected : KindSet) (s : State) :
    ∃ t, fail .recover cause expected s = .error .resync t ∧ t.stream = s.stream := by
  obtain ⟨t, ht, hstream⟩ := report_recover s.node (s.errorHere cause expected) s
  have hreport : reportHere .recover cause expected s = .ok () t := ht
  exact ⟨t, bind_ok hreport, hstream⟩

/-- **A pipe is not matched**, and neither is it dropped in front of a command word. -/
theorem expectOneOf_stays (h : BeforePipe u v s) (hpipe : set.contains .pipe = false)
    (hset : set.Inner ∨ set.contains (next s.coming) = true) :
    (∃ t k u', expectOneOf .recover set s = .ok () t ∧ set.contains k = true ∧ k :: u' <:+ u ∧
      t.coming = u' ++ .pipe :: v) ∨
    ∃ t, expectOneOf .recover set s = .error .resync t ∧ t.stream = s.stream := by
  have hfirst : s.kindAt 1 = next s.coming := kindAt_one h.proper
  have hsecond : s.kindAt 2 = next s.coming.tail := kindAt_two h.proper
  have hword : set.Inner → set.contains (next v) = false := fun hinner => hinner.2 _ h.word
  rw [expectOneOf_eq]
  rw [h.coming_eq] at hfirst hsecond hset
  split
  · rename_i hk
    refine .inl ?_
    rw [hfirst] at hk
    cases u with
    | nil =>
      rw [List.nil_append, next_cons, hpipe] at hk
      cases hk
    | cons k u =>
      exact ⟨_, k, u, rfl, hk, List.suffix_refl _, (h.proper.consume h.coming_eq).2.1⟩
  · rename_i hfirst'
    rw [hfirst] at hfirst'
    have hinner := hset.resolve_right hfirst'
    split
    · -- The token next but one is expected. It is neither the pipe nor the word behind it, so
      -- the token that is dropped stands before the pipe.
      rename_i hk
      refine .inl ?_
      simp only [ne_eq, Bool.and_eq_true, decide_eq_true_eq] at hk
      have hk := hk.2
      rw [hsecond] at hk
      rcases u with _ | ⟨k, _ | ⟨k', u⟩⟩
      · rw [List.nil_append, List.tail_cons, hword hinner] at hk
        cases hk
      · rw [List.cons_append, List.tail_cons, List.nil_append, next_cons, hpipe] at hk
        cases hk
      · obtain ⟨t, ht, hstream⟩ := report_recover s.node (s.errorHere .extraneous set) s
        have hreport : reportHere .recover .extraneous set s = .ok () t := ht
        obtain ⟨hs', hw', -⟩ := h.proper.consume h.coming_eq
        obtain ⟨-, hw'', -⟩ := hs'.consume hw'
        rw [← hstream] at hw''
        refine ⟨(t.discard t.node).consume, k', u, ?_, hk, List.suffix_cons k _, hw''⟩
        rw [hreport]
    · exact .inr (fail_recover .mismatched set s)

/-- A step that stays in front of the pipe, and leaves the rest `p` of a script confined. Each token
that it takes pays for four more rules that the rest may open. -/
def StepStays (u v : List Kind) (p : Script) (b : Nat) (res : Result) : Prop :=
  Stays u v res ∧ ∀ t, res = .ok () t →
    ∃ u' c, u' <:+ u ∧ BeforePipe u' v t ∧ p.Confined t.coming ∧ p.Affordable c ∧
      c + 4 * u'.length ≤ b + 4 * u.length

/-- A step that takes no token. -/
theorem BeforePipe.stepStays_ok (h : BeforePipe u v s) (he : Evolves s t)
    (hstream : t.stream = s.stream) (hp : p.Confined s.coming) (hb : p.Affordable b) :
    StepStays u v p b (.ok () t) := by
  have ht := h.congr he hstream
  refine ⟨ht.stays_ok (List.suffix_refl u), ?_⟩
  intro t' ht'
  cases ht'
  refine ⟨u, b, List.suffix_refl u, ht, ?_, hb, Nat.le_refl _⟩
  rw [coming_eq_of_stream hstream]
  exact hp

/-- A step that takes no token, and ends its rule. -/
theorem BeforePipe.stepStays_resync (h : BeforePipe u v s) (he : Evolves s t)
    (hstream : t.stream = s.stream) : StepStays u v p b (.error .resync t) := by
  refine ⟨(h.congr he hstream).stays_resync (List.suffix_refl u), ?_⟩
  intro t' ht'
  cases ht'

/-- **A step of a confined script stays in front of the pipe**, and leaves the rest of the script
confined. -/
theorem Move.run_stays (h : BeforePipe u v s) (hm : m.Plain) (hc : (step m p).Confined s.coming)
    (hb : (step m p).Affordable b) : StepStays u v p b (m.run .recover s) := by
  have he := m.run_evolves hm .recover h.proper
  cases m with
  | relabel label => exact h.stepStays_ok he rfl hc hb
  | wrap label => exact h.stepStays_ok he (stream_wrap s label) hc hb
  | take set =>
    obtain ⟨hpipe, hset, hp⟩ := hc
    rcases expectOneOf_stays h hpipe hset with ⟨t, k, u', ht, hk, hu, hcoming⟩ | ⟨t, ht, hstream⟩
    · have hu' : u' <:+ u := (List.suffix_cons k u').trans hu
      have hrun : (Move.take set).run .recover s = .ok () t := ht
      rw [hrun] at he ⊢
      have hbefore := h.evolves he hu' hcoming
      refine ⟨hbefore.stays_ok hu', ?_⟩
      intro t' ht'
      cases ht'
      refine ⟨u', b + 4, hu', hbefore, ?_, hb, ?_⟩
      · -- What stands behind a bracket need not be confined, but there is no bracket to match.
        rcases hp with rfl | hp
        · simp only [KindSet.contains_ofList, List.mem_singleton, decide_eq_true_eq] at hk
          subst hk
          exact absurd (hu.mem List.mem_cons_self) h.not_left
        · exact hp _
      · have hlen := hu.length_le
        rw [List.length_cons] at hlen
        omega
    · have hrun : (Move.take set).run .recover s = .error .resync t := ht
      rw [hrun] at he ⊢
      exact h.stepStays_resync he hstream
  | check floor highest =>
    by_cases hf : floor ≤ highest
    · have hrun : (Move.check floor highest).run .recover s = .ok () s := by
        rw [run, checkFloor, if_pos hf]
        rfl
      rw [hrun]
      exact h.stepStays_ok (.refl s) rfl hc hb
    · -- A floor that is too high is told of, and the rule goes on.
      obtain ⟨t, ht, hstream⟩ :=
        report_recover s.node (s.errorHere (.floorTooHigh floor highest) ∅) s
      have hrun : (Move.check floor highest).run .recover s = .ok () t := by
        rw [run, checkFloor, if_neg hf]
        exact ht
      rw [hrun] at he ⊢
      exact h.stepStays_ok he hstream hc hb
  | fail expected =>
    obtain ⟨t, ht, hstream⟩ := fail_recover .noViable expected s
    have hrun : (Move.fail expected).run .recover s = .error .resync t := ht
    rw [hrun] at he ⊢
    exact h.stepStays_resync he hstream
  | sync => exact hc.elim

/-! ## Scripts -/

/-- **A confined script stays in its stage**, whatever errors it meets there, if it may open as
many rules as it needs for the tokens of the stage. -/
theorem Executes.stays (h : Executes .recover limit d p s res) (hs : BeforePipe u v s)
    (hc : p.Confined s.coming) (hb : p.Affordable b) (hd : b + 4 * u.length ≤ d) :
    Stays u v res := by
  -- Along the execution, the budget `b` is what the rest of the script needs by itself.
  induction h generalizing u b with
  | done => exact hs.stays_ok (List.suffix_refl u)
  | @step d m p s s' res hm h _ ih =>
    obtain ⟨-, hstep⟩ := Move.run_stays hs hm hc hb
    obtain ⟨u', c, hu, hs', hp, hc', hle⟩ := hstep s' h
    obtain ⟨hres, u'', hu', hbefore⟩ := ih hs' hp hc' (Nat.le_trans hle hd)
    exact ⟨hres, u'', hu'.trans hu, hbefore⟩
  | @stop d m p s s' a hm h =>
    obtain ⟨hstep, -⟩ := Move.run_stays hs hm hc hb
    rwa [h] at hstep
  | @call d r f p s s' res res' _ hr hcl _ ihb ihp =>
    obtain ⟨hrule, hp⟩ := hc
    obtain ⟨hheight, hb⟩ := hb
    have hbody := ihb (hs.enter _ f) (opening_confined hrule f) (opening_affordable r f s.coming)
      (by omega)
    obtain ⟨t, u', ht, hu, hs'⟩ := hs.call hbody (hr.evolves hs.proper)
    rw [hcl] at ht
    cases ht
    have hlen := hu.length_le
    obtain ⟨hres, u'', hu', hbefore⟩ := ihp hs' (hp _) hb (by omega)
    exact ⟨hres, u'', hu'.trans hu, hbefore⟩
  | @callStop d r f p s s' a res' _ hr hcl ihb =>
    obtain ⟨hrule, -⟩ := hc
    obtain ⟨hheight, -⟩ := hb
    have hbody := ihb (hs.enter _ f) (opening_confined hrule f) (opening_affordable r f s.coming)
      (by omega)
    obtain ⟨t, u', ht, -⟩ := hs.call hbody (hr.evolves hs.proper)
    rw [hcl] at ht
    cases ht
  | @deep r f p s _ =>
    obtain ⟨hheight, -⟩ := hb
    omega
  | @go d q s res _ ih =>
    refine ih hs (Phase.script_confined ?_ _) (q.script_affordable _) ?_
    · rintro f rfl
      exact hc.elim
    · have hheight : q.height ≤ b := hb
      omega
  | idle => exact hc.elim

/-! ## Stages -/

/-- A confined call ends in front of the pipe, and the script goes on there. -/
theorem Executes.call_stays (h : Executes .recover limit d (.call r f p) s res)
    (hs : BeforePipe u v s) (hg : s.Going) (hr : r.Confined s.coming)
    (hd : r.height + 1 + 4 * u.length ≤ d) :
    ∃ t u', Executes .recover limit d p t res ∧ u' <:+ u ∧ BeforePipe u' v t ∧ t.Going ∧
      Evolves s t := by
  have hbody {d' : Nat} {res' : Result} (hb : Executes .recover limit d' (opening r f s.coming)
      (s.enter (.ofRule r) f) res') (hd : r.height + 4 * u.length ≤ d') :
      ∃ t u', closing res' = .ok () t ∧ u' <:+ u ∧ BeforePipe u' v t :=
    hs.call (hb.stays (hs.enter _ f) (opening_confined hr f) (opening_affordable r f _) hd)
      (hb.evolves hs.proper)
  cases h with
  | @call d' _ _ _ _ _ _ res' _ hb hc hp =>
    obtain ⟨t, u', ht, hu, hbefore⟩ := hbody hb (by omega)
    have hcall : Evolves s (Result.state (closing res')) := (hb.evolves hs.proper).closing
    obtain ⟨hends, -⟩ := closing_ends (hb.ends ⟨hg.failure_eq, hg.lastError⟩)
    rw [ht] at hc hcall hends
    cases hc
    exact ⟨_, u', hp, hu, hbefore, hends, hcall⟩
  | callStop _ hb hc =>
    obtain ⟨t, u', ht, -⟩ := hbody hb (by omega)
    rw [ht] at hc
    cases hc
  | deep => omega

/-- A query that goes on behind a pipe is wrapped, and the pipe is matched. -/
theorem pipe_evolves (hs : s.stream.Proper) (hw : s.coming = .pipe :: w) :
    Evolves s (s.wrap .compositeQuery).consume ∧ (s.wrap .compositeQuery).consume.coming = w := by
  have hne : (s.wrap .compositeQuery).kindAt 1 ≠ .endOfInput := by
    rw [kindAt_wrap, kindAt_one hs, hw, next_cons]
    decide
  refine ⟨(Evolves.edit (.wrap s .compositeQuery)).trans_edit (.consume hne), ?_⟩
  show (s.wrap .compositeQuery).stream.consume.coming = w
  rw [stream_wrap]
  exact (hs.consume hw).2.1

/-- Behind a pipe a command is parsed, as a stage of its own. -/
theorem Executes.pipe_inv {strategy : Strategy}
    (h : Executes strategy limit d (.go (.stages 0)) s res)
    (hs : s.stream.Proper) (hw : s.coming = .pipe :: w) :
    Executes strategy limit d (.call .processingCommand 0 (.go (.stages 0)))
      (s.wrap .compositeQuery).consume res := by
  have hscript : (Phase.stages 0).script s.coming =
      .step (.wrap .compositeQuery)
        (.token .pipe (.call .processingCommand 0 (.go (.stages 0)))) := by
    rw [hw]
    rfl
  cases h with
  | go h =>
    rw [hscript] at h
    have hproper : (s.wrap .compositeQuery).stream.Proper := by rwa [stream_wrap]
    have hnext : next (s.wrap .compositeQuery).coming = .pipe := by
      rw [coming_wrap, hw, next_cons]
    have h' : Executes strategy limit d _ (s.wrap .compositeQuery) res := h.step_inv rfl
    exact h'.step_inv (take_run hproper hnext)
  | idle _ _ hq =>
    rw [hscript] at hq
    cases hq

/-- Where a query is the only rule that can go on, it goes on at the end of a stage only. -/
theorem resync_stageEnd (hframes : s.frames.map Frame.rule = [.query, .singleStatement]) {k : Kind}
    (hk : s.resyncSet.contains k = true) : stageEnd.contains k = true := by
  rw [contains_resyncSet, hframes] at hk
  simpa [Rule.follow] using (Bool.and_eq_true_iff.mp hk).1

/-- A stage that is followed by anything else loses a token. -/
theorem syncStage_stays (hs : BeforePipe u v s) (hg : s.Going)
    (hframes : s.frames.map Frame.rule = [.query, .singleStatement])
    (hk : stageEnd.contains (next s.coming) = false) :
    ∃ t u', Move.sync.run .recover s = .ok () t ∧ u' <:+ u ∧ u'.length < u.length ∧
      BeforePipe u' v t ∧ t.Going ∧ Evolves s t := by
  have he := Move.sync.run_evolves trivial .recover hs.proper
  have hends := Move.run_ends hg .recover .sync
  obtain ⟨t, ht, hstream⟩ := fail_recover .noViable Rule.query.follow s
  have hfail : Evolves s t := by
    have hfail := fail_evolves .recover .noViable Rule.query.follow s
    rwa [ht] at hfail
  have hbefore := hs.congr hfail hstream
  have hcoming : t.coming = s.coming := coming_eq_of_stream hstream
  obtain ⟨t', u', ht', hu, hbefore'⟩ := recover_stays hbefore
  have hrun : Move.sync.run .recover s = .ok () t' := by
    rw [Move.run, syncStage, recovering, ht]
    exact ht'
  rw [hrun] at he hends
  refine ⟨t', u', hrun, hu, ?_, hbefore', hends, he⟩
  have hne : t.kindAt 1 ≠ .endOfInput := by
    rw [kindAt_one hbefore.proper, hcoming]
    intro heof
    rw [heof] at hk
    cases hk
  -- It moves on, unless the search stops at once, and then the stage has come to its end.
  rcases recover_ok hbefore.proper hne ht' with hlt | ⟨-, hresync⟩
  · rw [hbefore.coming_eq, hbefore'.coming_eq, List.length_append, List.length_append] at hlt
    omega
  · have hend := resync_stageEnd (hfail.frames_eq.trans hframes) hresync
    rw [kindAt_one hbefore.proper, hcoming, hk] at hend
    cases hend

/-- **The stages of a query, up to the pipe.** Whatever stands before the pipe, the query goes on
there. -/
theorem Executes.reaches_pipe (h : Executes .recover limit d (.go (.stages 0)) s res)
    (hs : BeforePipe u v s) (hg : s.Going)
    (hframes : s.frames.map Frame.rule = [.query, .singleStatement]) (hd : 6 + 4 * u.length ≤ d) :
    ∃ t, Executes .recover limit d (.go (.stages 0)) t res ∧ BeforePipe [] v t ∧ t.Going ∧
      Evolves s t := by
  -- Each stage before the pipe, and each token in no stage, leaves fewer tokens before it.
  induction hn : u.length using Nat.strongRecOn generalizing u s with
  | ind n ih =>
    subst hn
    match u with
    | [] => exact ⟨s, h, hs, hg, .refl s⟩
    | k :: u =>
      have hw : s.coming = k :: (u ++ .pipe :: v) := hs.coming_eq
      by_cases hpipe : k = .pipe
      · -- Another stage: it ends in front of the pipe, however malformed it is.
        subst hpipe
        have hcall := h.pipe_inv hs.proper hw
        obtain ⟨he, hcoming⟩ := pipe_evolves hs.proper hw
        have hs' := hs.evolves he (List.suffix_cons _ u) hcoming
        rw [List.length_cons] at hd
        obtain ⟨t, u', ht, hu, hbefore, hgt, he'⟩ := hcall.call_stays hs'
          (hg.wrap .compositeQuery).consume trivial (by rw [Rule.height]; omega)
        have hlen := hu.length_le
        have he := he.trans he'
        obtain ⟨t', ht', hbefore', hgt', he''⟩ := ih u'.length (by rw [List.length_cons]; omega) ht
          hbefore hgt (he.frames_eq.trans hframes) (by omega) rfl
        exact ⟨t', ht', hbefore', hgt', he.trans he''⟩
      · -- A token that ends no stage is in the way. The search for the end of the stage drops it.
        have hend : stageEnd.contains (next s.coming) = false := by
          have hright : k ≠ .rightBracket := fun hk => hs.not_right (hk ▸ List.mem_cons_self)
          have heof : k ≠ .endOfInput := ne_of_coming hs.proper hw
          rw [hw, next_cons]
          simp [stageEnd, hpipe, hright, heof]
        cases h with
        | go h =>
          have hscript : (Phase.stages 0).script s.coming = .step .sync (.go (.stages 0)) := by
            have hfollow : Rule.query.follow.contains (next s.coming) = false := hend
            rw [Phase.script, hfollow, hw, next_cons]
            simp [hpipe]
          rw [hscript] at h
          obtain ⟨t, u', hrun, hu, hlt, hbefore, hgt, he⟩ := syncStage_stays hs hg hframes hend
          obtain ⟨t', ht', hbefore', hgt', he'⟩ := ih u'.length hlt (h.step_inv hrun) hbefore hgt
            (he.frames_eq.trans hframes) (by omega) rfl
          exact ⟨t', ht', hbefore', hgt', he.trans he'⟩
        | idle _ hk _ =>
          have hresync := resync_stageEnd hframes hk
          rw [kindAt_one hs.proper, hend] at hresync
          cases hresync

end PipeQuery.Parser

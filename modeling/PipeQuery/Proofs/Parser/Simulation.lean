import PipeQuery.Proofs.Parser.Bodies
import PipeQuery.Proofs.Parser.Depth
import PipeQuery.Proofs.Parser.Soundness

/-!
# Parsing is reading

As long as no error has been met, the parser does to its innermost open node what the reading of
its script does to a draft. Where the reading gets stuck, the parser meets its first error, and the
tree keeps it from then on.

## Main definitions

* `OnCourse`: a state in which no error has been met
* `Errs`: what comes of a first error
* `Simulated`: the three ways in which a script is carried out on course

## Main results

* `Executes.simulated`: a script is carried out as it is read, unless too many rules are open
-/

namespace PipeQuery

/-- The node as a draft, over these tokens. -/
def Site.draft (tokens : Array Token) (x : Site) : Parser.Draft :=
  ⟨x.label, Subtree.shapes tokens x.children⟩

/-- An open node without errors. -/
def Site.Intact (x : Site) : Prop := x.error = none ∧ Subtree.AllIntact x.children

namespace Parser

open Token (Kind KindSet)

/-- A state in which no error has been met, with its innermost open node and the path above it. -/
structure OnCourse (s : State) (x : Site) (p : Path) : Prop where
  tracks : Tracks s (x :: p)
  intact : x.Intact
  proper : s.stream.Proper
  recovering_eq : s.recovering = false
  failure_eq : s.failure = none

/-- A first error is met before the tokens `w`: the tree keeps it, and a parse that bails out ends
there. -/
structure Errs (strategy : Strategy) (s : State) (w : List Kind) (res : Result) : Prop where
  faulty : res.state.Faulty
  bailed : strategy = .bail → ∃ s' e, res = .error .halt s' ∧ s'.failure = some (.bailed e) ∧
    e.index + w.length + 1 = s.stream.size

variable {strategy : Strategy} {limit d : Nat} {q : Script} {s s' : State} {x y : Site} {p : Path}
  {res : Result} {m : Move} {n : Draft} {k : Kind} {w : List Kind} {r : Rule} {f : Nat}
  {label : Label}

/-! ## Steps that meet no error -/

theorem OnCourse.relabel (h : OnCourse s x p) :
    OnCourse (s.relabel label) { x with label := label } p :=
  ⟨h.tracks.relabel label, h.intact, h.proper, h.recovering_eq, h.failure_eq⟩

theorem OnCourse.wrap (h : OnCourse s x p) (label : Label) :
    OnCourse (s.wrap label) (x.wrap s.arena.size label s.cursor) p := by
  refine ⟨h.tracks.wrap label, ⟨rfl, h.intact, trivial⟩, ?_, ?_, ?_⟩
  · rw [stream_wrap]
    exact h.proper
  · exact (recovering_wrap s label).trans h.recovering_eq
  · exact (failure_wrap s label).trans h.failure_eq

theorem OnCourse.consume (h : OnCourse s x p) (hw : s.coming = k :: w) :
    OnCourse s.consume (x.add (.token s.cursor)) p ∧ s.consume.coming = w ∧
      s.consume.cursor = s.cursor + 1 := by
  obtain ⟨hproper, hcoming, hcursor⟩ := h.proper.consume hw
  refine ⟨⟨h.tracks.consume, ⟨h.intact.1, ?_⟩, hproper, rfl, h.failure_eq⟩, hcoming, hcursor⟩
  exact (Subtree.allIntact_append _ _).mpr ⟨h.intact.2, trivial, trivial⟩

/-- A rule that is opened has met no error, whatever stands above it. -/
theorem Tracks.enter_onCourse (h : Tracks s p) (hs : s.stream.Proper) (hr : s.recovering = false)
    (hf : s.failure = none) (r : Rule) (f : Nat) :
    OnCourse (s.enter (.ofRule r) f) (.opened s.arena.size (.ofRule r) s.cursor) p :=
  ⟨h.enter (.ofRule r) f, ⟨rfl, trivial⟩, hs, hr, hf⟩

theorem OnCourse.enter (h : OnCourse s x p) (r : Rule) (f : Nat) :
    OnCourse (s.enter (.ofRule r) f) (.opened s.arena.size (.ofRule r) s.cursor) (x :: p) :=
  h.tracks.enter_onCourse h.proper h.recovering_eq h.failure_eq r f

theorem OnCourse.leave (h : OnCourse s y (x :: p)) (hx : x.Intact) :
    OnCourse s.leave (x.add (y.close s.cursor).subtree) p := by
  refine ⟨h.tracks.leave, ⟨hx.1, ?_⟩, ?_, ?_, ?_⟩
  · exact (Subtree.allIntact_append _ _).mpr ⟨hx.2, h.intact, trivial⟩
  · rw [stream_leave]
    exact h.proper
  · exact (recovering_leave s).trans h.recovering_eq
  · exact (failure_leave s).trans h.failure_eq

/-! ## Drafts of open nodes -/

theorem draft_opened (tokens : Array Token) (id : NodeId) (start : Nat) :
    (Site.opened id (.ofRule r) start).draft tokens = .fresh r := rfl

theorem draft_wrap (tokens : Array Token) (x : Site) (id : NodeId) (label : Label) (stop : Nat) :
    (x.wrap id label stop).draft tokens = ⟨label, [(x.draft tokens).shape]⟩ := by
  simp [Site.wrap, Site.draft, Site.close, Site.subtree, Subtree.shapes, Subtree.shape, Draft.shape]

theorem draft_add (tokens : Array Token) (x : Site) (c : Subtree) :
    (x.add c).draft tokens = (x.draft tokens).add (c.shape tokens) := by
  simp [Site.add, Site.draft, Draft.add, Subtree.shapes_append, Subtree.shapes]

theorem shape_close (tokens : Array Token) (x : Site) (stop : Nat) :
    (x.close stop).subtree.shape tokens = (x.draft tokens).shape := by
  simp [Site.draft, Site.close, Site.subtree, Subtree.shape, Draft.shape]

/-- **A step that a reading takes is taken.** -/
theorem OnCourse.run_some (h : OnCourse s x p) (strategy : Strategy) (hm : m.Plain)
    (ha : m.apply (x.draft s.stream.tokens) s.coming = some (n, w)) :
    ∃ y s', m.run strategy s = .ok () s' ∧ OnCourse s' y p ∧ s'.coming = w ∧
      y.draft s.stream.tokens = n := by
  cases m with
  | relabel l =>
    cases ha
    exact ⟨_, _, rfl, h.relabel, rfl, rfl⟩
  | wrap l =>
    cases ha
    exact ⟨_, _, rfl, h.wrap l, coming_wrap s l, draft_wrap ..⟩
  | take set =>
    cases hw : s.coming with
    | nil => rw [hw] at ha; cases ha
    | cons k v =>
      rw [hw, Move.apply] at ha
      split at ha
      · rename_i hk
        cases ha
        obtain ⟨hy, hcoming, -⟩ := h.consume hw
        refine ⟨_, _, ?_, hy, hcoming, ?_⟩
        · have hkind : s.kindAt 1 = k := by rw [kindAt_one h.proper, hw, next_cons]
          rw [Move.run, expectOneOf_eq, hkind, if_pos hk]
        · have hkind := h.proper.token_kind
          rw [← State.coming, hw, next_cons] at hkind
          rw [draft_add, Subtree.shape]
          exact congrArg (fun k => Draft.add _ (.token k)) hkind
      · cases ha
  | check floor highest =>
    rw [Move.apply] at ha
    split at ha
    · rename_i hf
      cases ha
      refine ⟨x, s, ?_, h, rfl, rfl⟩
      rw [Move.run, checkFloor, if_pos hf]
      rfl
    · cases ha
  | fail | sync => cases ha

/-! ## First errors -/

/-- A node to which an error is attached has one. -/
theorem attach_faulty (h : s.arena.Builds (x :: p)) (e : SyntaxError)
    (hs : s'.arena = s.arena.attach x.id e) : s'.Faulty := by
  have hnode := (h.attach e).node_top
  rw [← hs] at hnode
  refine ⟨_, _, hnode, ?_⟩
  show Option.isSome (Site.error _) = true
  split
  · assumption
  · rfl

/-- The first error is reported where it is met. -/
theorem report_errs (h : s.arena.Builds (x :: p)) (strategy : Strategy) (hs : s.stream.Proper)
    (hr : s.recovering = false) (hf : s.failure = none) {e : SyntaxError} (he : e.index = s.cursor) :
    Errs strategy s s.coming (report strategy x.id e s) := by
  rw [report, hr]
  cases strategy with
  | recover => exact ⟨attach_faulty h e rfl, fun hs => by cases hs⟩
  | bail =>
    refine ⟨attach_faulty h e rfl, fun _ => ⟨_, e, rfl, ?_, he ▸ hs.cursor_add⟩⟩
    show s.failure.or _ = _
    rw [hf]
    rfl

theorem OnCourse.reportHere_errs (h : OnCourse s x p) (strategy : Strategy)
    (cause : SyntaxError.Cause) (expected : KindSet) :
    Errs strategy s s.coming (reportHere strategy cause expected s) := by
  rw [reportHere, h.tracks.node_eq]
  exact report_errs h.tracks.builds strategy h.proper h.recovering_eq h.failure_eq rfl

/-- What happens behind an error does not undo it. -/
theorem Errs.of_keeps {res res' : Result} (h : Errs strategy s w res)
    (hk : KeepsErrors res.state.arena res'.state.arena)
    (hb : ∀ s', res = .error .halt s' → ∃ s'', res' = .error .halt s'' ∧ s''.failure = s'.failure) :
    Errs strategy s w res' := by
  refine ⟨hk.faulty h.faulty, fun hs => ?_⟩
  obtain ⟨s', e, hres, hf, hindex⟩ := h.bailed hs
  obtain ⟨s'', hres', hf'⟩ := hb s' hres
  exact ⟨s'', e, hres', hf'.trans hf, hindex⟩

/-- A first error at the end of a part shows at the end of the whole. -/
theorem Errs.trans_keeps (h : Errs strategy s w (.ok () s'))
    (hk : KeepsErrors s'.arena res.state.arena) : Errs strategy s w res :=
  h.of_keeps hk fun _ hs => by cases hs

theorem Errs.trans (h : Errs strategy s w (.ok () s')) (he : Evolves s' res.state) :
    Errs strategy s w res :=
  h.trans_keeps he.keepsErrors

theorem fail_errs (h : OnCourse s x p) (strategy : Strategy) (cause : SyntaxError.Cause)
    (expected : KindSet) :
    Errs strategy s s.coming (fail strategy cause expected s) := by
  have hreport := h.reportHere_errs strategy cause expected
  show Errs strategy s s.coming (EStateM.bind (reportHere strategy cause expected) _ s)
  rw [EStateM.bind]
  cases hr : reportHere strategy cause expected s with
  | error a t => rwa [hr] at hreport
  | ok _ t =>
    rw [hr] at hreport
    exact hreport.of_keeps (.refl t.arena) fun s' hs' => by cases hs'

theorem expectOneOf_errs (h : OnCourse s x p) (strategy : Strategy) {set : KindSet}
    (hk : set.contains (next s.coming) = false) :
    Errs strategy s s.coming (expectOneOf strategy set s) := by
  rw [expectOneOf_eq, kindAt_one h.proper, hk, if_neg Bool.false_ne_true]
  split
  · have hreport := h.reportHere_errs strategy .extraneous set
    cases hr : reportHere strategy .extraneous set s with
    | error a t => rwa [hr] at hreport
    | ok _ t =>
      rw [hr] at hreport
      exact hreport.trans_keeps (keepsErrors_discard_consume t)
  · exact fail_errs h strategy .mismatched set

/-- **Where a reading gets stuck, the first error is met.** -/
theorem OnCourse.run_none (h : OnCourse s x p) (strategy : Strategy) (hm : m.Plain)
    (ha : m.apply (x.draft s.stream.tokens) s.coming = none) :
    Errs strategy s s.coming (m.run strategy s) := by
  cases m with
  | relabel | wrap => cases ha
  | take set =>
    refine expectOneOf_errs h strategy ?_
    cases hw : s.coming with
    | nil => exact hm
    | cons k w =>
      rw [hw, Move.apply] at ha
      split at ha
      · cases ha
      · rename_i hk
        simpa using hk
  | check floor highest =>
    rw [Move.apply] at ha
    split at ha
    · cases ha
    · rename_i hf
      rw [Move.run, checkFloor, if_neg hf]
      exact h.reportHere_errs ..
  | fail expected => exact fail_errs h strategy .noViable expected
  | sync =>
    -- What the search does behind the error cannot undo it.
    have hfail := fail_errs h strategy .noViable Rule.query.follow
    show Errs strategy s s.coming (recovering _ s)
    rw [recovering]
    split
    · rename_i t ht
      rw [ht] at hfail
      exact hfail.of_keeps (recover_evolves t).keepsErrors fun s' hs' => by cases hs'
    · exact hfail

/-! ## Scripts -/

/-- The ways in which a script is carried out on course. -/
inductive Simulated (strategy : Strategy) (d : Nat) (q : Script) (s : State) (x : Site) (p : Path) :
    Result → Prop where
  /-- The script is read to its end, and no error is met. -/
  | read {s' : State} {y : Site} (hc : OnCourse s' y p)
    (hr : Reads q (x.draft s.stream.tokens) s.coming
      (.read (y.draft s.stream.tokens) s'.coming)) : Simulated strategy d q s x p (.ok () s')
  /-- The reading gets stuck, and a first error is met. -/
  | stuck {res : Result} {w : List Kind}
    (hr : Reads q (x.draft s.stream.tokens) s.coming (.stuck w)) (he : Errs strategy s w res) :
    Simulated strategy d q s x p res
  /-- More rules are open than the script can afford. -/
  | deep {s' : State} (hf : s'.failure.isSome = true)
    (hd : ∀ b, q.Affordable b → d < b + 4 * s.coming.length) :
    Simulated strategy d q s x p (.error .halt s')

theorem Errs.closing (h : Errs strategy s w res) : Errs strategy s w (closing res) := by
  obtain ⟨t, ht, he⟩ := closing_state res
  refine ⟨?_, fun hs => ?_⟩
  · rw [ht]
    exact (keepsErrors_leave t).faulty (he.faulty h.faulty)
  · obtain ⟨s', e, rfl, hf, hindex⟩ := h.bailed hs
    exact ⟨s'.leave, e, rfl, (failure_leave s').trans hf, hindex⟩

theorem Errs.congr (h : Errs strategy s' w res) (hs : s'.stream.tokens = s.stream.tokens) :
    Errs strategy s w res := by
  refine ⟨h.faulty, fun hb => ?_⟩
  obtain ⟨t, e, hres, hf, hindex⟩ := h.bailed hb
  rw [TokenStream.size, hs] at hindex
  exact ⟨t, e, hres, hf, hindex⟩

/-- What a step leaves, the rest of the script can afford. -/
theorem Script.Affordable.of_step {n' : Draft} {w' : List Kind} {b : Nat}
    (h : (Script.step m q).Affordable b) (ha : m.apply n w = some (n', w')) :
    ∃ c, q.Affordable c ∧ c + 4 * w'.length ≤ b + 4 * w.length := by
  cases m with
  | take set =>
    cases w with
    | nil => cases ha
    | cons k w =>
      rw [Move.apply] at ha
      split at ha
      · cases ha
        refine ⟨b + 4, h, ?_⟩
        rw [List.length_cons]
        omega
      · cases ha
  | check floor highest =>
    rw [Move.apply] at ha
    split at ha
    · cases ha
      exact ⟨b, h, Nat.le_refl _⟩
    · cases ha
  | relabel | wrap =>
    cases ha
    exact ⟨b, h, Nat.le_refl _⟩
  | fail | sync => cases ha

/-- A rule that is read takes some token. -/
theorem Reads.length_lt {v : List Kind} (hr : r ≠ .singleStatement)
    (h : Reads (opening r f w) (.fresh r) w (.read n v)) : v.length < w.length := by
  obtain ⟨u, rfl, hu, -⟩ := h.groups hr
  have hne := hu.derives.ne_nil
  rw [List.length_append]
  exact Nat.lt_add_of_pos_left (List.length_pos_iff.mpr hne)

/-- A step that is read, before a script that is carried out on course. -/
theorem Simulated.step (h : Simulated strategy d q s' y p res)
    (ha : m.apply (x.draft s.stream.tokens) s.coming = some (y.draft s.stream.tokens, s'.coming))
    (ht : s'.stream.tokens = s.stream.tokens) : Simulated strategy d (.step m q) s x p res := by
  cases h with
  | read hc hr =>
    rw [ht] at hr
    exact .read hc (.step ha hr)
  | stuck hr he =>
    rw [ht] at hr
    exact .stuck (.step ha hr) (he.congr ht)
  | deep hf hd =>
    refine .deep hf fun b hb => ?_
    obtain ⟨c, hc, hle⟩ := hb.of_step ha
    exact Nat.lt_of_lt_of_le (hd c hc) hle

/-- A call that is read, before a script that is carried out on course. -/
theorem Simulated.call (hr : r ≠ .singleStatement) (h : Simulated strategy (d + 1) q s' y p res)
    (hcall : Reads (opening r f s.coming) (.fresh r) s.coming (.read n s'.coming))
    (hy : y.draft s.stream.tokens = (x.draft s.stream.tokens).add n.shape)
    (ht : s'.stream.tokens = s.stream.tokens) :
    Simulated strategy (d + 1) (.call r f q) s x p res := by
  cases h with
  | read hc hq =>
    rw [ht, hy] at hq
    exact .read hc (.call hcall hq)
  | stuck hq he =>
    rw [ht, hy] at hq
    exact .stuck (.call hcall hq) (he.congr ht)
  | deep hf hd =>
    refine .deep hf fun b hb => ?_
    have hlt := hcall.length_lt hr
    have hd := hd b hb.2
    omega

/-- A rule that is called and closed again, before a script that is carried out on course from
there. -/
theorem Simulated.of_call {res' : Result} (hc : OnCourse s x p) (hr : r ≠ .singleStatement)
    (hbody : Simulated strategy d (opening r f s.coming) (s.enter (.ofRule r) f)
      (.opened s.arena.size (.ofRule r) s.cursor) (x :: p) res')
    (hclose : closing res' = .ok () s') (hadv : Advances s.stream s'.stream)
    (hlater : Evolves s' res.state)
    (hrest : ∀ z, OnCourse s' z p → Simulated strategy (d + 1) q s' z p res) :
    Simulated strategy (d + 1) (.call r f q) s x p res := by
  have hfresh := draft_opened (r := r) (s.enter (.ofRule r) f).stream.tokens s.arena.size s.cursor
  cases hbody with
  | @read t y hin hread =>
    cases hclose
    have hdraft := draft_add s.stream.tokens x (y.close t.cursor).subtree
    rw [shape_close] at hdraft
    rw [hfresh, ← coming_leave t] at hread
    exact (hrest _ (hin.leave hc.intact)).call hr hread hdraft hadv.tokens_eq
  | stuck hread herrs =>
    -- The rule has put its error behind it, but the tree keeps what was met.
    have herrs := herrs.closing
    rw [hclose] at herrs
    rw [hfresh] at hread
    exact .stuck (.callStuck hread) ((herrs.congr (s := s) rfl).trans hlater)
  | deep => cases hclose

/-- A rule that is called, when the script does not go on behind it. -/
theorem Simulated.of_callStop {res' : Result} {a : Abort}
    (hbody : Simulated strategy d (opening r f s.coming) (s.enter (.ofRule r) f)
      (.opened s.arena.size (.ofRule r) s.cursor) (x :: p) res')
    (hclose : closing res' = .error a s') :
    Simulated strategy (d + 1) (.call r f q) s x p (.error a s') := by
  have hfresh := draft_opened (r := r) (s.enter (.ofRule r) f).stream.tokens s.arena.size s.cursor
  cases hbody with
  | read => cases hclose
  | stuck hread herrs =>
    have herrs := herrs.closing
    rw [hclose] at herrs
    rw [hfresh] at hread
    exact .stuck (.callStuck hread) (herrs.congr rfl)
  | @deep t hf hd =>
    cases hclose
    refine .deep ((failure_leave t).symm ▸ hf) fun b hb => ?_
    have hd : d < r.height + 4 * s.coming.length := hd r.height (opening_affordable r f s.coming)
    have hheight : r.height < b := hb.1
    omega

/-- A rule that there is no room for. -/
theorem Simulated.of_failTooDeep (hc : OnCourse s x p) (limit : Nat) :
    Simulated strategy 0 (.call r f q) s x p
      (closing (failTooDeep limit (s.enter (.ofRule r) f))) := by
  refine .deep ?_ fun b hb => ?_
  · show (State.leave _).failure.isSome = true
    rw [failure_leave]
    show (Option.or (State.enter s (.ofRule r) f).failure _).isSome = true
    rw [(hc.enter r f).failure_eq]
    rfl
  · have hheight : r.height < b := hb.1
    omega

/-- **A script is carried out as it is read**, unless too many rules are open. -/
theorem Executes.simulated (h : Executes strategy limit d q s res) (hc : OnCourse s x p) :
    Simulated strategy d q s x p res := by
  -- Along the run, for the node that is innermost where each part of it begins.
  induction h generalizing x p with
  | done => exact .read hc .done
  | @step d m q s s' res hm h hp ih =>
    have hstep := Move.run_evolves hm strategy hc.proper
    rw [h] at hstep
    have hadv : Advances s.stream s'.stream := hstep.advances
    cases ha : m.apply (x.draft s.stream.tokens) s.coming with
    | none =>
      have herrs := hc.run_none strategy hm ha
      rw [h] at herrs
      exact .stuck (.stuck ha) (herrs.trans (hp.evolves (hadv.proper hc.proper)))
    | some a =>
      obtain ⟨n, w⟩ := a
      obtain ⟨y, t, ht, hy, rfl, rfl⟩ := hc.run_some strategy hm ha
      rw [h] at ht
      cases ht
      exact (ih hy).step ha hadv.tokens_eq
  | @stop d m q s s' a hm h =>
    cases ha : m.apply (x.draft s.stream.tokens) s.coming with
    | none =>
      have herrs := hc.run_none strategy hm ha
      rw [h] at herrs
      exact .stuck (.stuck ha) herrs
    | some a =>
      -- A step that the reading takes does not fail.
      obtain ⟨y, t, ht, -⟩ := hc.run_some strategy hm ha
      rw [h] at ht
      cases ht
  | @call d r f q s s' res res' hr hb hc' hp ihb ihp =>
    have hy := hc.enter r f
    have hcall := (hb.evolves hy.proper).closing
    rw [hc'] at hcall
    have hadv : Advances s.stream s'.stream := hcall.advances
    exact .of_call hc hr (ihb hy) hc' hadv (hp.evolves (hadv.proper hc.proper)) fun z hz => ihp hz
  | callStop _ _ hc' ihb => exact .of_callStop (ihb (hc.enter _ _)) hc'
  | deep => exact .of_failTooDeep hc limit
  | go h ih =>
    cases ih hc with
    | read hc' hr => exact .read hc' (.go hr)
    | stuck hr he => exact .stuck (.go hr) he
    | deep hf hd =>
      refine .deep hf fun b hb => ?_
      have hd := hd _ (Phase.script_affordable _ _)
      exact Nat.lt_of_lt_of_le hd (Nat.add_le_add_right hb _)
  | idle h =>
    -- Nothing is recovering on course.
    rw [hc.recovering_eq] at h
    cases h

end Parser

end PipeQuery

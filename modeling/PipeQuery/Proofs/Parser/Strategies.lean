import PipeQuery.Proofs.Parser.OneTree

/-!
# Bailing out and recovering

A parse that bails out and one that recovers run the same rules. They go through the same states
until the first error is met. There the one ends, and says which error it was; the other goes on,
and keeps that error as the first of its tree.

## Main definitions

* `State.Spotless`: a state in which no error has been met
* `Blames`: a state whose first error is a given one
* `Agrees`: what the ends of the two parses have to do with each other

## Main results

* `blames_invariant`: the first error stays the first, and no error is in front of it
* `Executes.agrees`, `run_agrees`: the two parses agree
* `bail_agrees`: what comes of the one, by what comes of the other
-/

namespace PipeQuery

namespace Parser

open Token (Kind KindSet)

/-- A state in which no error has been met. -/
structure State.Spotless (s : State) : Prop where
  recovering_eq : s.recovering = false
  lastError_eq : s.lastError = none
  failure_eq : s.failure = none
  reported_eq : s.arena.reported = #[]
  errorAt_eq : ∀ id, s.arena.errorAt id = none

/-- A state whose first error is `e`: it is noted first, and no other error is in front of it. -/
structure Blames (e : SyntaxError) (s : State) : Prop where
  first : ∃ id, s.arena.reported[0]? = some id ∧ s.arena.errorAt id = some e
  index_le : ∀ id e', s.arena.errorAt id = some e' → e.index ≤ e'.index
  lastError_le : ∀ e', s.lastError = some e' → e.index ≤ e'.index
  failure_le : ∀ e', s.failure = some (.unrecoverable e') → e.index ≤ e'.index
  cursor_le : e.index ≤ s.cursor

/-- What the end of a part of a parse that recovers has to do with the end of the same part of a
parse that bails out. -/
inductive Agrees : Result → Result → Prop
  /-- No error has been met. -/
  | same {s : State} (h : s.Spotless) : Agrees (.ok () s) (.ok () s)
  /-- Too many rules were open before an error was met. -/
  | deep {s : State} {e : SyntaxError} (h : s.failure = some (.tooDeep e)) :
    Agrees (.error .halt s) (.error .halt s)
  /-- A first error has been met, which the one parse keeps and the other ends with. -/
  | first {res : Result} {s : State} {e : SyntaxError} (h : Blames e res.state)
    (hs : s.failure = some (.bailed e)) : Agrees res (.error .halt s)

variable {s s' : State} {x : Site} {p : Path} {e : SyntaxError} {id : NodeId} {strategy : Strategy}
  {limit d f : Nat} {q : Script} {r : Rule} {m : Move} {res res' : Result} {options : Options}
  {tokens : List Token} {t : ParseTree}

/-! ## The first error -/

/-- The arena may change as long as the errors do not. -/
theorem Blames.congr (h : Blames e s) (ha : s.arena.SameErrors s'.arena)
    (hl : s'.lastError = s.lastError) (hf : s'.failure = s.failure) (hc : s.cursor ≤ s'.cursor) :
    Blames e s' := by
  obtain ⟨id, hid, herror⟩ := h.first
  constructor
  case first =>
    refine ⟨id, ?_, ?_⟩
    · rw [ha.reported_eq, hid]
    · rw [ha.errorAt_eq, herror]
  case index_le =>
    intro id e' he
    rw [ha.errorAt_eq] at he
    exact h.index_le id e' he
  case lastError_le =>
    rw [hl]
    exact h.lastError_le
  case failure_le =>
    rw [hf]
    exact h.failure_le
  case cursor_le => exact Nat.le_trans h.cursor_le hc

/-- A further error at the cursor stands behind the first. -/
theorem Blames.attach (h : Blames e s) {e' : SyntaxError} (he : e'.index = s.cursor)
    (id : NodeId) : Blames e { s with arena := s.arena.attach id e' } := by
  obtain ⟨first, hfirst, herror⟩ := h.first
  constructor
  case first =>
    refine ⟨first, ?_, Arena.errorAt_attach_of_some herror id e'⟩
    show (s.arena.attach id e').reported[0]? = some first
    rcases s.arena.attach_cases id e' with hsame | ⟨-, -, hreported, -⟩
    · rw [hsame, hfirst]
    · have hpos : 0 < s.arena.reported.size := (Array.getElem?_eq_some_iff.mp hfirst).1
      rw [hreported, Array.getElem?_push, if_neg (Nat.ne_of_lt hpos), hfirst]
  case index_le =>
    intro i e'' hi
    rcases Arena.errorAt_attach hi with hold | rfl
    · exact h.index_le i e'' hold
    · rw [he]
      exact h.cursor_le
  case lastError_le => exact h.lastError_le
  case failure_le => exact h.failure_le
  case cursor_le => exact h.cursor_le

theorem Blames.terminate (h : Blames e s) {failure : Failure}
    (hf : ∀ e', failure = .unrecoverable e' → e.index ≤ e'.index) :
    Blames e (s.terminate failure) := by
  refine ⟨h.first, h.index_le, h.lastError_le, ?_, h.cursor_le⟩
  intro e' he
  have he : s.failure.or (some failure) = some (.unrecoverable e') := he
  cases hs : s.failure with
  | none =>
    rw [hs] at he
    exact hf e' (Option.some.inj he)
  | some failure' =>
    rw [hs] at he
    exact h.failure_le e' (hs.trans he)

theorem Blames.report (h : Blames e s) (strategy : Strategy) (id : NodeId) {e' : SyntaxError}
    (he : e'.index = s.cursor) : Blames e (Result.state (report strategy id e' s)) := by
  rw [report_state]
  split
  · exact h
  · have hattach : Blames e (s.raise id e') :=
      (h.attach he id).congr (.refl _) rfl rfl (Nat.le_refl _)
    cases strategy with
    | bail =>
      refine hattach.terminate ?_
      intro e'' he''
      cases he''
    | recover =>
      refine ⟨hattach.first, hattach.index_le, ?_, hattach.failure_le, hattach.cursor_le⟩
      intro e'' he''
      cases he''
      rw [he]
      exact h.cursor_le

/-- What becomes of the last error and of the reason for an end, when tokens are dropped. -/
theorem Blames.dropRest (h : Blames e s) (id : NodeId) : Blames e (s.dropRest id) := by
  obtain ⟨hf, -, hl⟩ := discardUntil_keeps id ∅ s.stream.remaining s
  exact h.congr (sameErrors_dropRest s id) hl hf
    (discardUntil_advances id ∅ s.stream.remaining s).cursor_le

theorem Blames.edit (h : Edit s s') (hs : Blames e s) : Blames e s' := by
  cases h with
  | relabel label => exact hs.congr (Arena.sameErrors_relabel ..) rfl rfl (Nat.le_refl _)
  | wrap label =>
    exact hs.congr (sameErrors_wrap s label) (lastError_wrap s label) (failure_wrap s label)
      (Nat.le_of_eq (cursor_wrap s label).symm)
  | consume | discard =>
    exact hs.congr (Arena.sameErrors_push ..) rfl rfl (advances_consume s.stream).cursor_le
  | report strategy cause expected => exact hs.report strategy s.node rfl
  | tooDeep limit =>
    have hattach : Blames e { s with
        arena := s.arena.attach s.node (s.errorHere (.tooDeep limit) ∅) } := hs.attach rfl s.node
    refine hattach.terminate ?_
    intro e' he'
    cases he'
  | search => exact hs.congr (.refl _) rfl rfl (Nat.le_refl _)
  | giveUp hlast =>
    -- The error that ends the parse is the last one, and that is not before the first.
    refine Blames.terminate (s := { s with lastError := none }) ?_ ?_
    · refine ⟨hs.first, hs.index_le, ?_, hs.failure_le, hs.cursor_le⟩
      intro e' he'
      cases he'
    · intro e' he'
      cases he'
      exact hs.lastError_le _ hlast

theorem Blames.trailing (hs : Blames e s) (strategy : Strategy) :
    Blames e (Result.state (Parser.trailing strategy s)) := by
  rw [Parser.trailing]
  split
  · have hreport : Blames e
        (Result.state (Parser.report strategy (s.arena.root.getD 0) s.trailingError s)) :=
      hs.report strategy (s.arena.root.getD 0) rfl
    cases hr : Parser.report strategy (s.arena.root.getD 0) s.trailingError s with
    | error a u =>
      rw [hr] at hreport
      exact hreport
    | ok _ u =>
      rw [hr] at hreport
      exact Blames.dropRest hreport (s.arena.root.getD 0)
  · exact hs

/-- **The first error stays the first**, whatever happens behind it. -/
theorem blames_invariant (e : SyntaxError) : Invariant (Blames e) := by
  constructor
  case edit => exact fun h hs => hs.edit h
  case enter =>
    intro s label floor hs
    exact hs.congr (Arena.sameErrors_openNode ..) rfl rfl (Nat.le_refl _)
  case leave =>
    intro s hs
    exact hs.congr (sameErrors_leave s) (lastError_leave s) (failure_leave s)
      (Nat.le_of_eq (cursor_leave s).symm)
  case consume =>
    intro s hs
    exact hs.congr (Arena.sameErrors_push ..) rfl rfl (advances_consume s.stream).cursor_le
  case trailing => exact fun strategy hs => hs.trailing strategy

/-! ## Steps without errors -/

theorem State.Spotless.congr (h : s.Spotless) (ha : s.arena.SameErrors s'.arena)
    (hr : s'.recovering = false) (hl : s'.lastError = s.lastError) (hf : s'.failure = s.failure) :
    s'.Spotless := by
  refine ⟨hr, hl.trans h.lastError_eq, hf.trans h.failure_eq, ?_, ?_⟩
  · exact ha.reported_eq.trans h.reported_eq
  · exact fun id => (ha.errorAt_eq id).trans (h.errorAt_eq id)

theorem State.Spotless.consume (h : s.Spotless) : s.consume.Spotless :=
  h.congr (Arena.sameErrors_push ..) rfl rfl rfl

theorem State.Spotless.relabel (h : s.Spotless) (label : Label) : (s.relabel label).Spotless :=
  h.congr (Arena.sameErrors_relabel ..) h.recovering_eq rfl rfl

theorem State.Spotless.wrap (h : s.Spotless) (label : Label) : (s.wrap label).Spotless :=
  h.congr (sameErrors_wrap s label) ((recovering_wrap s label).trans h.recovering_eq)
    (lastError_wrap s label) (failure_wrap s label)

theorem State.Spotless.enter (h : s.Spotless) (label : Label) (floor : Nat) :
    (s.enter label floor).Spotless :=
  h.congr (Arena.sameErrors_openNode ..) h.recovering_eq rfl rfl

theorem State.Spotless.leave (h : s.Spotless) : s.leave.Spotless :=
  h.congr (sameErrors_leave s) ((recovering_leave s).trans h.recovering_eq) (lastError_leave s)
    (failure_leave s)

theorem spotless_start (stream : TokenStream) : (State.start stream).Spotless :=
  ⟨rfl, rfl, rfl, rfl, fun _ => rfl⟩

/-! ## The first error is met -/

/-- A node that exists takes the first error, which a parse that bails out ends with. -/
theorem report_agrees (h : s.Spotless) (hid : id < s.arena.size) (he : e.index = s.cursor) :
    ∃ t t', report .recover id e s = .ok () t ∧ report .bail id e s = .error .halt t' ∧
      Blames e t ∧ t'.failure = some (.bailed e) := by
  refine ⟨_, _, by rw [report, h.recovering_eq]; rfl, by rw [report, h.recovering_eq]; rfl, ?_, ?_⟩
  · -- No node had an error, so this one is the only one and the first.
    obtain ⟨hreported, herror⟩ := Arena.attach_of_errorAt_none hid (h.errorAt_eq id) e
    constructor
    case first =>
      refine ⟨id, ?_, ?_⟩
      · show (s.arena.attach id e).reported[0]? = some id
        rw [hreported, h.reported_eq]
        rfl
      · show (s.arena.attach id e).errorAt id = some e
        rw [herror, if_pos rfl]
    case index_le =>
      intro i e' hi
      have hi : (s.arena.attach id e).errorAt i = some e' := hi
      rw [herror, h.errorAt_eq] at hi
      split at hi
      · cases hi
        exact Nat.le_refl _
      · cases hi
    case lastError_le =>
      intro e' he'
      cases he'
      exact Nat.le_refl _
    case failure_le =>
      intro e' he'
      have he' : s.failure = some (.unrecoverable e') := he'
      rw [h.failure_eq] at he'
      cases he'
    case cursor_le => exact Nat.le_of_eq he
  · show s.failure.or _ = _
    rw [h.failure_eq]
    rfl

theorem node_lt (ht : Tracks s (x :: p)) : s.node < s.arena.size := by
  rw [ht.node_eq]
  exact ht.builds.lt_size List.mem_cons_self

theorem reportHere_agrees (h : s.Spotless) (ht : Tracks s (x :: p)) (cause : SyntaxError.Cause)
    (expected : KindSet) :
    ∃ t t', reportHere .recover cause expected s = .ok () t ∧
      reportHere .bail cause expected s = .error .halt t' ∧
      Blames (s.errorHere cause expected) t ∧
      t'.failure = some (.bailed (s.errorHere cause expected)) :=
  report_agrees h (node_lt ht) rfl

theorem fail_agrees (h : s.Spotless) (ht : Tracks s (x :: p)) (cause : SyntaxError.Cause)
    (expected : KindSet) :
    ∃ t t', fail .recover cause expected s = .error .resync t ∧
      fail .bail cause expected s = .error .halt t' ∧
      Blames (s.errorHere cause expected) t ∧
      t'.failure = some (.bailed (s.errorHere cause expected)) := by
  obtain ⟨t, t', hrecover, hbail, hblames, hfailure⟩ := reportHere_agrees h ht cause expected
  exact ⟨t, t', bind_ok hrecover, bind_error hbail, hblames, hfailure⟩

theorem expectOneOf_agrees (h : s.Spotless) (ht : Tracks s (x :: p)) (set : KindSet) :
    Agrees (expectOneOf .recover set s) (expectOneOf .bail set s) := by
  rw [expectOneOf_eq, expectOneOf_eq]
  split
  · exact .same h.consume
  · split
    · rename_i hk
      simp only [ne_eq, Bool.and_eq_true, decide_eq_true_eq] at hk
      obtain ⟨t, t', hrecover, hbail, hblames, hfailure⟩ := reportHere_agrees h ht .extraneous set
      obtain ⟨hstream, -, hrec⟩ := reportHere_ok hrecover
      rw [hrecover, hbail]
      have hkind : t.kindAt 1 ≠ .endOfInput := by
        rw [kindAt_eq_of_stream hstream]
        exact hk.1
      have hinvariant := blames_invariant (s.errorHere .extraneous set)
      exact .first (hinvariant.consume (hinvariant.edit (.discard hkind hrec) hblames)) hfailure
    · obtain ⟨t, t', hrecover, hbail, hblames, hfailure⟩ := fail_agrees h ht .mismatched set
      rw [hrecover, hbail]
      exact .first hblames hfailure

/-- **A step agrees**, whichever strategy it is taken with. -/
theorem Move.run_agrees (h : s.Spotless) (ht : Tracks s (x :: p)) (m : Move) :
    Agrees (m.run .recover s) (m.run .bail s) := by
  cases m with
  | relabel label => exact .same (h.relabel label)
  | wrap label => exact .same (h.wrap label)
  | take set => exact expectOneOf_agrees h ht set
  | check floor highest =>
    rw [run, run, checkFloor, checkFloor]
    split
    · exact .same h
    · obtain ⟨t, t', hrecover, hbail, hblames, hfailure⟩ :=
        reportHere_agrees h ht (.floorTooHigh floor highest) ∅
      rw [hrecover, hbail]
      exact .first hblames hfailure
  | fail expected =>
    obtain ⟨t, t', hrecover, hbail, hblames, hfailure⟩ := fail_agrees h ht .noViable expected
    rw [run, run, hrecover, hbail]
    exact .first hblames hfailure
  | sync =>
    -- Recovering goes on behind the error, which stays the first to be blamed.
    obtain ⟨t, t', hrecover, hbail, hblames, hfailure⟩ :=
      fail_agrees h ht .noViable Rule.query.follow
    rw [run, run, syncStage, syncStage, recovering, recovering, hrecover, hbail]
    exact .first ((blames_invariant _).evolves (recover_evolves t) hblames) hfailure

/-! ## Scripts -/

/-- What is done behind the first error does not change which one it is. -/
theorem Agrees.trans_evolves (h : Agrees (.ok () s) (.error .halt s')) (he : Evolves s res.state) :
    Agrees res (.error .halt s') := by
  cases h with
  | first hblames hs => exact .first ((blames_invariant _).evolves he hblames) hs

theorem Agrees.closing (h : Agrees res res') : Agrees (closing res) (closing res') := by
  cases h with
  | same hs => exact .same hs.leave
  | @deep s e hs => exact .deep ((failure_leave s).trans hs)
  | @first _ s e hblames hs =>
    exact .first ((blames_invariant e).closing hblames) ((failure_leave s).trans hs)

theorem failTooDeep_agrees (h : s.Spotless) (limit : Nat) :
    Agrees (failTooDeep limit s) (failTooDeep limit s) := by
  refine .deep (e := s.errorHere (.tooDeep limit) ∅) ?_
  show s.failure.or _ = _
  rw [h.failure_eq]
  rfl

/-- Parts of a parse that agree go on from the same state, or not at all. -/
theorem Agrees.ok_inv (h : Agrees (.ok () s) (.ok () s')) : s' = s ∧ s.Spotless := by
  cases h with
  | same hs => exact ⟨rfl, hs⟩

theorem Agrees.not_error_ok {a : Abort} (h : Agrees (.error a s) (.ok () s')) : False := by
  cases h

theorem Agrees.halt {a : Abort} (h : Agrees res (.error a s')) : a = .halt := by
  cases h <;> rfl

/-- **A script agrees**: carried out with either strategy from a state without errors, it comes to
the same state without errors, or to a first error that the one keeps and the other ends with. -/
theorem Executes.agrees (h : Executes .recover limit d q s res)
    (h' : Executes .bail limit d q s res') (hs : s.Spotless) (hp : s.stream.Proper)
    (ht : Tracks s (x :: p)) : Agrees res res' := by
  -- Along the parse that recovers. Up to the first error the other one is in the same state; from
  -- there on only the first has anything left to do.
  induction h generalizing res' x p with
  | done =>
    cases h'
    exact .same hs
  | @step d m q s u res hm hu hq ih =>
    have hstep := m.run_agrees hs ht
    have hevolves := Move.run_evolves hm .recover hp
    rw [hu] at hstep hevolves
    have hproper := hevolves.advances.proper hp
    cases h' with
    | step _ hu' hq' =>
      rw [hu'] at hstep
      obtain ⟨rfl, hspotless⟩ := hstep.ok_inv
      obtain ⟨y, hy, -⟩ := hevolves.tracks ht
      exact ih hq' hspotless hproper hy
    | stop _ hu' =>
      rw [hu'] at hstep
      obtain rfl := hstep.halt
      exact hstep.trans_evolves (hq.evolves hproper)
  | @stop d m q s u a hm hu =>
    have hstep := m.run_agrees hs ht
    rw [hu] at hstep
    cases h' with
    | step _ hu' _ =>
      rw [hu'] at hstep
      exact hstep.not_error_ok.elim
    | stop _ hu' => rwa [hu'] at hstep
  | @call d r f q s u res body hr hb hc hq ihb ihq =>
    have hevolves := (hb.evolves (s := s.enter (.ofRule r) f) hp).closing
    rw [hc] at hevolves
    have hproper := hevolves.advances.proper hp
    -- The rule agrees, and so do the parses when it has been left.
    have hrule {body' : Result} (hb' : Executes .bail limit d (opening r f s.coming)
        (s.enter (.ofRule r) f) body') : Agrees (.ok () u) (closing body') := by
      rw [← hc]
      exact (ihb hb' (hs.enter ..) hp (ht.enter (.ofRule r) f)).closing
    cases h' with
    | call _ hb' hc' hq' =>
      have hcall := hrule hb'
      rw [hc'] at hcall
      obtain ⟨rfl, hspotless⟩ := hcall.ok_inv
      obtain ⟨y, hy, -⟩ := hevolves.tracks ht
      exact ihq hq' hspotless hproper hy
    | callStop _ hb' hc' =>
      have hcall := hrule hb'
      rw [hc'] at hcall
      obtain rfl := hcall.halt
      exact hcall.trans_evolves (hq.evolves hproper)
  | @callStop d r f q s u a body hr hb hc ihb =>
    have hrule {body' : Result} (hb' : Executes .bail limit d (opening r f s.coming)
        (s.enter (.ofRule r) f) body') : Agrees (.error a u) (closing body') := by
      rw [← hc]
      exact (ihb hb' (hs.enter ..) hp (ht.enter (.ofRule r) f)).closing
    cases h' with
    | call _ hb' hc' _ =>
      have hcall := hrule hb'
      rw [hc'] at hcall
      exact hcall.not_error_ok.elim
    | callStop _ hb' hc' =>
      rw [← hc']
      exact hrule hb'
  | deep =>
    cases h'
    exact (failTooDeep_agrees (hs.enter ..) limit).closing
  | go _ ih =>
    cases h' with
    | go h' => exact ih h' hs hp ht
    | idle hrec =>
      rw [hs.recovering_eq] at hrec
      cases hrec
  | idle hrec =>
    rw [hs.recovering_eq] at hrec
    cases hrec

theorem Calls.agrees (h : Calls .recover limit d r f s res) (h' : Calls .bail limit d r f s res')
    (hs : s.Spotless) (hp : s.stream.Proper) (ht : Tracks s p) : Agrees res res' := by
  cases d with
  | zero =>
    cases h
    cases h'
    exact (failTooDeep_agrees (hs.enter ..) limit).closing
  | succ d =>
    obtain ⟨body, hb, rfl⟩ := h
    obtain ⟨body', hb', rfl⟩ := h'
    exact (hb.agrees hb' (hs.enter ..) hp (ht.enter (.ofRule r) f)).closing

/-! ## Entries -/

theorem trailing_agrees (h : s.Spotless) (hb : s.arena.Builds [x]) :
    Agrees (trailing .recover s) (trailing .bail s) := by
  have hroot : s.arena.root.getD 0 = x.id := by rw [hb.root_eq]; rfl
  rw [trailing, trailing]
  split
  · obtain ⟨t, t', hrecover, hbail, hblames, hfailure⟩ :=
      report_agrees h (hb.lt_size List.mem_cons_self) (e := s.trailingError) rfl
    rw [hroot, hrecover, hbail]
    exact .first (hblames.dropRest x.id) hfailure
  · exact .same h

/-- Parts of a parse agree, one after the other, if the second part keeps the first error. -/
theorem Agrees.andThen {next next' : State → Result} :
    Agrees res res' → (∀ s, res = .ok () s → s.Spotless → Agrees (next s) (next' s)) →
    (∀ e s, Blames e s → Blames e (Result.state (next s))) →
    Agrees (match res with | .ok () s => next s | .error a s => .error a s)
      (match res' with | .ok () s => next' s | .error a s => .error a s) := by
  intro h hsame hblames
  cases h with
  | same hs => exact hsame _ rfl hs
  | deep hs => exact .deep hs
  | first hfirst hs =>
    refine .first ?_ hs
    cases res with
    | ok _ s => exact hblames _ s hfirst
    | error a s => exact hfirst

theorem statement_agrees (maxDepth : Nat) (tokens : List Token) :
    Agrees (parseRule ⟨maxDepth, .recover⟩ maxDepth .singleStatement 0 (.start (.ofList tokens)))
      (parseRule ⟨maxDepth, .bail⟩ maxDepth .singleStatement 0 (.start (.ofList tokens))) := by
  have hspotless : (opened tokens).Spotless := (spotless_start (.ofList tokens)).enter ..
  cases maxDepth with
  | zero =>
    rw [parseRule, parseRule, within_eq]
    exact (failTooDeep_agrees hspotless 0).closing
  | succ d =>
    rw [parseRule_statement, parseRule_statement]
    have hproper := opened_proper tokens
    have hcall (strategy : Strategy) := query_calls ⟨d + 1, strategy⟩ d tokens
    have hevolves := (hcall .recover).evolves hproper
    have hquery := (hcall .recover).agrees (hcall .bail) hspotless hproper (opened_tracks tokens)
    refine (hquery.andThen (fun s hs h => ?_) fun e s => ?_).closing
    · rw [hs] at hevolves
      obtain ⟨y, hy, -⟩ := hevolves.tracks (opened_tracks tokens)
      exact expectOneOf_agrees h hy _
    · exact (blames_invariant e).expectOneOf _ _

theorem standalone_agrees (maxDepth floor : Nat) (tokens : List Token) :
    Agrees (standalone ⟨maxDepth, .recover⟩ floor (.start (.ofList tokens)))
      (standalone ⟨maxDepth, .bail⟩ floor (.start (.ofList tokens))) := by
  rw [standalone_eq, standalone_eq]
  have hproper := start_proper tokens
  have hcall (strategy : Strategy) := standalone_calls ⟨maxDepth, strategy⟩ floor tokens
  obtain ⟨v, hv, hnest⟩ := (hcall .recover).exists_nest hproper
  have hexpression := (hcall .recover).agrees (hcall .bail) (spotless_start (.ofList tokens))
    hproper (p := []) ⟨Arena.builds_empty, rfl⟩
  refine hexpression.andThen (fun s hs h => ?_) fun e s hb => hb.trailing _
  rw [hs] at hv
  obtain rfl : s = v.leave := hv
  obtain ⟨y, hy, -⟩ := hnest.tracks (openedExpression_tracks tokens floor)
  exact trailing_agrees h hy.leave_root

/-- **The two parses agree**, whatever is parsed. -/
theorem run_agrees (entry : Entry) (maxDepth : Nat) (tokens : List Token) :
    Agrees (entry.run ⟨maxDepth, .recover⟩ (.start (.ofList tokens)))
      (entry.run ⟨maxDepth, .bail⟩ (.start (.ofList tokens))) := by
  cases entry with
  | statement => exact statement_agrees maxDepth tokens
  | expression floor => exact standalone_agrees maxDepth floor tokens

/-! ## Trees -/

/-- A tree that is returned by a parse that bails out has no errors. -/
theorem isValid_of_bail (entry : Entry) {maxDepth : Nat}
    (h : entry.parse ⟨maxDepth, .bail⟩ tokens = .ok t) : t.isValid = true := by
  have hne : (TokenStream.ofList tokens).isEmpty = false := by
    cases entry <;> exact isEmpty_eq_false_of_run h (by simp)
  have hverdict {q : Script} {n : Draft} {w : List Kind} {b : Nat} {root : Draft → Shape}
      (hv : Verdict ⟨maxDepth, .bail⟩ q n w b root (entry.parse ⟨maxDepth, .bail⟩ tokens)) :
      t.isValid = true := by
    rw [h] at hv
    cases hv with
    | valid hx hi => exact hx.isValid_iff.mpr hi
    | faulty _ _ _ hb =>
      obtain ⟨_, he, -⟩ := hb rfl
      cases he
  cases entry with
  | statement => exact hverdict (statement_verdict _ hne)
  | expression floor => exact hverdict (expression_verdict _ floor hne)

/-- The first of the errors, if none is in front of it, is the first in the order of the tokens. -/
theorem head?_mergeSort_cons {es : List SyntaxError} (h : ∀ e' ∈ es, e.index ≤ e'.index) :
    ((e :: es).mergeSort fun e e' => e.index ≤ e'.index).head? = some e := by
  have htrans (a b c : SyntaxError) (hab : decide (a.index ≤ b.index) = true)
      (hbc : decide (b.index ≤ c.index) = true) : decide (a.index ≤ c.index) = true := by
    rw [decide_eq_true_eq] at hab hbc ⊢
    exact Nat.le_trans hab hbc
  have htotal (a b : SyntaxError) :
      (decide (a.index ≤ b.index) || decide (b.index ≤ a.index)) = true := by
    simpa using Nat.le_total a.index b.index
  obtain ⟨before, behind, hsort, hrest, hbefore⟩ := List.mergeSort_cons htrans htotal e es
  -- What is sorted in front of `e` would have to come strictly before it.
  have hnil : before = [] := by
    rw [List.eq_nil_iff_forall_not_mem]
    intro e' he'
    have hmem : e' ∈ es := by
      have hperm := List.mergeSort_perm es fun (e e' : SyntaxError) => decide (e.index ≤ e'.index)
      refine hperm.mem_iff.mp ?_
      rw [hrest]
      exact List.mem_append_left _ he'
    have hlt := hbefore e' he'
    simp only [Bool.not_eq_true', decide_eq_false_iff_not] at hlt
    exact hlt (h e' hmem)
  rw [hsort, hnil]
  rfl

/-- The first error of a parse is the first of the diagnostics of its tree. -/
theorem Blames.head?_diagnostics (h : Blames e s) (hs : finish s = .ok t) :
    t.diagnostics.head? = some e := by
  obtain ⟨hnodes, hreported⟩ := nodes_of_finish hs
  have herror (i : NodeId) : (t.node i).error = s.arena.errorAt i := by
    rw [ParseTree.node, hnodes, Arena.errorAt]
    cases s.arena.nodes[i]? <;> rfl
  obtain ⟨id, hid, hfirst⟩ := h.first
  obtain ⟨rest, hrest⟩ : ∃ rest, t.reported.toList = id :: rest := by
    rw [hreported]
    cases hlist : s.arena.reported.toList with
    | nil => rw [← Array.getElem?_toList, hlist] at hid; cases hid
    | cons i rest =>
      rw [← Array.getElem?_toList, hlist] at hid
      cases hid
      exact ⟨rest, rfl⟩
  rw [ParseTree.diagnostics, hrest, List.filterMap_cons, herror, hfirst]
  apply head?_mergeSort_cons
  intro e' he'
  obtain ⟨i, -, hi⟩ := List.mem_filterMap.mp he'
  rw [herror] at hi
  exact h.index_le i e' hi

/-- A tree with an error is not valid. -/
theorem Blames.isValid_eq_false (h : Blames e s) (hs : finish s = .ok t) {y : Subtree}
    (hy : t.IsWhole y) : t.isValid = false := by
  obtain ⟨hnodes, -⟩ := nodes_of_finish hs
  obtain ⟨id, -, herror⟩ := h.first
  obtain ⟨n, hn, he⟩ := Option.bind_eq_some_iff.mp herror
  rw [← hnodes] at hn
  exact hy.isValid_eq_false hn (by rw [he]; rfl)

/-- Where no error has been met, there is a tree, or there was nothing to parse. -/
theorem State.Spotless.finish (h : s.Spotless) :
    (∃ t, finish s = .ok t) ∨ finish s = .error .emptyInput := by
  rw [Parser.finish, h.failure_eq]
  cases s.arena.finish s.stream.tokens with
  | none => exact .inr rfl
  | some t => exact .inl ⟨t, rfl⟩

/-- **Bailing out and recovering agree up to the first error.** Whatever tokens are parsed, and as
whatever they are taken for: the one parse returns a tree if and only if the other returns the same
one and it is valid. Where the tree has errors, bailing out ends with the first of them. Where there
is no tree, it ends with an error that is not behind the one that the other ends with, unless too many
rules are open. -/
theorem bail_agrees (entry : Entry) (maxDepth : Nat) (tokens : List Token) :
    (∀ t, entry.parse ⟨maxDepth, .bail⟩ tokens = .ok t ↔
      entry.parse ⟨maxDepth, .recover⟩ tokens = .ok t ∧ t.isValid = true) ∧
    (∀ t, entry.parse ⟨maxDepth, .recover⟩ tokens = .ok t → t.isValid = false →
      ∃ e, entry.parse ⟨maxDepth, .bail⟩ tokens = .error (.bailed e) ∧
        t.diagnostics.head? = some e) ∧
    (∀ e, entry.parse ⟨maxDepth, .recover⟩ tokens = .error (.unrecoverable e) →
      ∃ e', entry.parse ⟨maxDepth, .bail⟩ tokens = .error (.bailed e') ∧ e'.index ≤ e.index) ∧
    (∀ e, entry.parse ⟨maxDepth, .recover⟩ tokens = .error (.tooDeep e) →
      entry.parse ⟨maxDepth, .bail⟩ tokens = .error (.tooDeep e) ∨
        ∃ e', entry.parse ⟨maxDepth, .bail⟩ tokens = .error (.bailed e')) := by
  have hvalid (t : ParseTree) (h : entry.parse ⟨maxDepth, .bail⟩ tokens = .ok t) :
      t.isValid = true := isValid_of_bail entry h
  have hwhole (t : ParseTree) (h : entry.parse ⟨maxDepth, .recover⟩ tokens = .ok t) :
      ∃ y, t.IsWhole y := (parse_leafIndices entry h).imp fun _ hy => hy.1
  by_cases hempty : (TokenStream.ofList tokens).isEmpty = true
  · -- There is nothing to parse, in either way.
    have hnone (strategy : Strategy) :
        entry.parse ⟨maxDepth, strategy⟩ tokens = .error .emptyInput := by
      cases entry <;> exact (run_eq ..).trans (if_pos hempty)
    simp [hnone]
  have hagrees := run_agrees entry maxDepth tokens
  rw [parse_eq_finish entry (Bool.eq_false_iff.mpr hempty)] at hvalid hwhole ⊢
  rw [parse_eq_finish entry (Bool.eq_false_iff.mpr hempty)]
  generalize entry.run ⟨maxDepth, .recover⟩ (.start (.ofList tokens)) = res at hagrees hwhole
  generalize entry.run ⟨maxDepth, .bail⟩ (.start (.ofList tokens)) = res' at hagrees hvalid
  cases hagrees with
  | @same s hs =>
    refine ⟨fun t => ⟨fun h => ⟨h, hvalid t h⟩, fun h => h.1⟩, fun t h hf => ?_, fun e h => ?_,
      fun e h => ?_⟩
    · rw [hvalid t h] at hf
      cases hf
    · rcases hs.finish with ⟨t, ht⟩ | hnone
      · cases ht.symm.trans h
      · cases hnone.symm.trans h
    · exact .inl h
  | @deep s e hs =>
    have hfinish : finish s = .error (.tooDeep e) := finish_of_failure hs
    refine ⟨fun t => ⟨fun h => ?_, fun h => h.1⟩, fun t h => ?_, fun e h => ?_, fun e h => .inl h⟩
    · cases hfinish.symm.trans h
    · cases hfinish.symm.trans h
    · cases hfinish.symm.trans h
  | @first _ s e hblames hs =>
    have hbailed : finish s = .error (.bailed e) := finish_of_failure hs
    refine ⟨fun t => ⟨fun h => ?_, fun ⟨h, hv⟩ => ?_⟩, fun t h _ => ?_, fun e' h => ?_,
      fun e' _ => .inr ⟨e, hbailed⟩⟩
    · cases hbailed.symm.trans h
    · obtain ⟨y, hy⟩ := hwhole t h
      rw [hblames.isValid_eq_false h hy] at hv
      cases hv
    · exact ⟨e, hbailed, hblames.head?_diagnostics h⟩
    · refine ⟨e, hbailed, hblames.failure_le e' ?_⟩
      rw [finish] at h
      split at h <;> cases h
      assumption

/-- The expression `a or ) b` has a tree with errors, a query that starts with `limit` has none, and
neither has one with more rules open than allowed. -/
theorem bail_agrees_orOperand :
    (∃ t e, Entry.parse ⟨20, .recover⟩ ([Kind.name, .orWord, .rightParen, .name].map Token.ofKind)
      (.expression 0) = .ok t ∧ t.isValid = false ∧
      Entry.parse ⟨20, .bail⟩ ([Kind.name, .orWord, .rightParen, .name].map Token.ofKind)
        (.expression 0) = .error (.bailed e) ∧ t.diagnostics.head? = some e) ∧
    (∃ e e', Entry.parse ⟨20, .recover⟩ ([Kind.limitCmd, .integer].map Token.ofKind) .statement =
        .error (.unrecoverable e) ∧
      Entry.parse ⟨20, .bail⟩ ([Kind.limitCmd, .integer].map Token.ofKind) .statement =
        .error (.bailed e') ∧ e'.index ≤ e.index) ∧
    ∃ e, Entry.parse ⟨2, .recover⟩ ([Kind.fromCmd, .sourceName].map Token.ofKind) .statement =
        .error (.tooDeep e) ∧
      (Entry.parse ⟨2, .bail⟩ ([Kind.fromCmd, .sourceName].map Token.ofKind) .statement =
          .error (.tooDeep e) ∨
        ∃ e', Entry.parse ⟨2, .bail⟩ ([Kind.fromCmd, .sourceName].map Token.ofKind) .statement =
          .error (.bailed e')) := by
  refine ⟨?_, ?_, ?_⟩
  · obtain ⟨t, h, hv⟩ : ∃ t, Entry.parse ⟨20, .recover⟩
        ([Kind.name, .orWord, .rightParen, .name].map Token.ofKind) (.expression 0) = .ok t ∧
          t.isValid = false := by
      decide +kernel
    obtain ⟨-, hfirst, -⟩ := bail_agrees (.expression 0) 20
      ([Kind.name, .orWord, .rightParen, .name].map Token.ofKind)
    obtain ⟨e, hbail, hhead⟩ := hfirst t h hv
    exact ⟨t, e, h, hv, hbail, hhead⟩
  · have h : Entry.parse ⟨20, .recover⟩ ([Kind.limitCmd, .integer].map Token.ofKind) .statement =
        .error (.unrecoverable ⟨.noViable, .sourceCommand, 0, .ofKind .limitCmd,
          Rule.sourceCommand.first⟩) := by
      decide +kernel
    obtain ⟨-, -, hnone, -⟩ := bail_agrees .statement 20 ([Kind.limitCmd, .integer].map Token.ofKind)
    obtain ⟨e', hbail, hle⟩ := hnone _ h
    exact ⟨_, e', h, hbail, hle⟩
  · have h : Entry.parse ⟨2, .recover⟩ ([Kind.fromCmd, .sourceName].map Token.ofKind) .statement =
        .error (.tooDeep ⟨.tooDeep 2, .sourceCommand, 0, .ofKind .fromCmd, ∅⟩) := by
      decide +kernel
    obtain ⟨-, -, -, hdeep⟩ := bail_agrees .statement 2 ([Kind.fromCmd, .sourceName].map Token.ofKind)
    exact ⟨_, h, hdeep _ h⟩

end Parser

end PipeQuery

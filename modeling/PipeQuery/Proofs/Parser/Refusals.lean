import PipeQuery.Proofs.Parser.Orderly
import PipeQuery.Proofs.Parser.Raised
import PipeQuery.Proofs.Parser.Strategies

/-!
# Floors that are refused

An expression refuses a floor above the highest that it accepts: it tells so at its node, and goes
on. The rules call one another over floors that they accept, so a floor is refused at the start of
an expression that stands alone, or not at all. No operator is above such a floor, so the node that
tells of it stays the root.

## Main definitions

* `SyntaxError.Refuses`: an error that tells of a floor
* `Entry.Raises`: an error that a parse raises
* `Accepts`: no floor is refused between two states
* `Script.Still`: a script that leaves its node where it is

## Main results

* `Executes.accepts`: orderly scripts refuse no floor
* `Executes.keeps_node`: still scripts do not wrap their node
* `statement_accepts_floors`: no floor is refused in a statement
* `expression_refuses`: what comes of a floor that is too high
-/

namespace PipeQuery

/-- An error that tells of a floor that is too high. -/
def SyntaxError.Refuses (e : SyntaxError) : Prop :=
  ∃ floor highest, e.cause = .floorTooHigh floor highest

/-- An error that a parse raises. Where there are no tokens, nothing is parsed. -/
def Entry.Raises (entry : Entry) (options : Options) (tokens : List Token) (e : SyntaxError) :
    Prop :=
  (TokenStream.ofList tokens).isEmpty = false ∧ e ∈ entry.raised options tokens

namespace Parser

open Token (Kind KindSet)
open Script

variable {options : Options} {strategy : Strategy} {limit d f : Nat} {m : Move} {p : Script}
  {s s' s'' : State} {x : Site} {path : Path} {res : Result} {w : List Kind} {tokens : List Token}
  {id : NodeId} {e : SyntaxError} {cause : SyntaxError.Cause} {expected : KindSet}

/-! ## Errors that tell of no floor -/

/-- Whatever is raised between two states, no floor is refused. -/
def Accepts (s s' : State) : Prop :=
  ∃ es, s'.raised = es ++ s.raised ∧ ∀ e ∈ es, ¬ e.Refuses

theorem Accepts.of_eq (h : s'.raised = s.raised) : Accepts s s' :=
  ⟨[], h, fun _ he => by cases he⟩

theorem Accepts.trans (h : Accepts s s') (h' : Accepts s' s'') : Accepts s s'' := by
  obtain ⟨es, hes, hno⟩ := h
  obtain ⟨es', hes', hno'⟩ := h'
  refine ⟨es' ++ es, by rw [hes', hes, List.append_assoc], fun e he => ?_⟩
  exact (List.mem_append.mp he).elim (hno' e) (hno e)

theorem report_accepts (he : ¬ e.Refuses) (strategy : Strategy) (id : NodeId) (s : State) :
    Accepts s (Result.state (report strategy id e s)) := by
  rw [report_state]
  split
  · exact .of_eq rfl
  · refine ⟨[e], ?_, fun e' he' => ?_⟩
    · cases strategy <;> rfl
    · rw [List.mem_singleton.mp he']
      exact he

theorem reportHere_accepts (hc : ∀ floor highest, cause ≠ .floorTooHigh floor highest)
    (strategy : Strategy) (expected : KindSet) (s : State) :
    Accepts s (Result.state (reportHere strategy cause expected s)) :=
  report_accepts (fun ⟨floor, highest, h⟩ => hc floor highest h) strategy s.node s

theorem raised_discardUntil (id : NodeId) (stop : KindSet) (n : Nat) (s : State) :
    (s.discardUntil id stop n).raised = s.raised := by
  obtain ⟨_, _, hdrop⟩ := discardUntil_eq id stop n s
  rw [hdrop]

/-- Looking for a place to go on leaves the open rules and the errors as they are. -/
theorem recover_keeps (s : State) :
    (Result.state (recover s)).frames = s.frames ∧
      (Result.state (recover s)).raised = s.raised := by
  obtain ⟨_, _, hdrop⟩ := discardUntil_eq s.node s.resyncSet s.stream.remaining
    { s with recovering := true }
  rw [recover, hdrop]
  split
  · split <;> exact ⟨rfl, rfl⟩
  · exact ⟨rfl, rfl⟩

theorem fail_accepts (hc : ∀ floor highest, cause ≠ .floorTooHigh floor highest)
    (strategy : Strategy) (expected : KindSet) (s : State) :
    Accepts s (Result.state (fail strategy cause expected s)) := by
  rw [fail_state]
  exact reportHere_accepts hc strategy expected s

theorem expectOneOf_accepts (strategy : Strategy) (set : KindSet) (s : State) :
    Accepts s (Result.state (expectOneOf strategy set s)) := by
  rw [expectOneOf_eq]
  split
  · exact .of_eq rfl
  · split
    · have hreport : Accepts s (Result.state (reportHere strategy .extraneous set s)) :=
        reportHere_accepts (fun _ _ h => by cases h) strategy set s
      cases hr : reportHere strategy .extraneous set s with
      | ok _ t =>
        rw [hr] at hreport
        exact hreport.trans (.of_eq rfl)
      | error a t =>
        rw [hr] at hreport
        exact hreport
    · exact fail_accepts (fun _ _ h => by cases h) strategy set s

/-- **A step that is no check of a floor refuses none**, nor does a check that is passed. -/
theorem Move.run_accepts (hm : m.Accepted) (strategy : Strategy) (s : State) :
    Accepts s (Result.state (m.run strategy s)) := by
  cases m with
  | relabel label => exact .of_eq rfl
  | wrap label => exact .of_eq (quiet_wrap s label).raised_eq
  | take set => exact expectOneOf_accepts strategy set s
  | check floor highest =>
    have hm : floor ≤ highest := hm
    rw [run, checkFloor, if_pos hm]
    exact .of_eq rfl
  | fail expected => exact fail_accepts (fun _ _ h => by cases h) strategy expected s
  | sync =>
    have hfail : Accepts s (Result.state
        (Parser.fail strategy .noViable Rule.query.follow s)) :=
      fail_accepts (fun _ _ h => by cases h) strategy _ s
    rw [run, syncStage, recovering]
    split
    · rename_i t ht
      rw [ht] at hfail
      exact hfail.trans (.of_eq (recover_keeps t).2)
    · exact hfail

theorem closing_accepts (res : Result) : Accepts res.state (Result.state (closing res)) := by
  have hleave (t : State) : Accepts t t.leave := .of_eq (quiet_leave t).raised_eq
  cases res with
  | ok _ t => exact hleave t
  | error a t =>
    cases a with
    | halt => exact hleave t
    | resync =>
      have hrecover : Accepts t (Result.state (recover t)) := .of_eq (recover_keeps t).2
      rw [closing]
      cases hr : recover t with
      | ok _ u | error _ u =>
        rw [hr] at hrecover
        exact hrecover.trans (hleave u)

/-- **Orderly scripts refuse no floor.** -/
theorem Executes.accepts (h : Executes strategy limit d p s res) (hp : p.Orderly) :
    Accepts s res.state := by
  induction h with
  | done => exact .of_eq rfl
  | @step d m p s s' res _ h _ ih =>
    have hstep := Move.run_accepts hp.1.2 strategy s
    rw [h] at hstep
    exact hstep.trans (ih hp.2)
  | @stop d m p s s' a _ h =>
    have hstep := Move.run_accepts hp.1.2 strategy s
    rw [h] at hstep
    exact hstep
  | @call d r f p s s' res res' _ _ hc _ ihb ihp =>
    have hclosing := closing_accepts res'
    rw [hc] at hclosing
    have hbody : Accepts s res'.state := ihb (opening_orderly hp.1.1 hp.1.2)
    exact (hbody.trans hclosing).trans (ihp hp.2)
  | @callStop d r f p s s' a res' _ _ hc ihb =>
    have hclosing := closing_accepts res'
    rw [hc] at hclosing
    have hbody : Accepts s res'.state := ihb (opening_orderly hp.1.1 hp.1.2)
    exact hbody.trans hclosing
  | @deep r f p s _ =>
    have hclosing := closing_accepts (failTooDeep limit (s.enter (.ofRule r) f))
    have hdeep : Accepts s (Result.state (failTooDeep limit (s.enter (.ofRule r) f))) := .of_eq rfl
    exact hdeep.trans hclosing
  | go _ ih => exact ih (Phase.script_orderly _)
  | idle => exact .of_eq rfl

theorem trailing_accepts (strategy : Strategy) (s : State) :
    Accepts s (Result.state (trailing strategy s)) := by
  have hreport : Accepts s (Result.state
      (report strategy (s.arena.root.getD 0) s.trailingError s)) :=
    report_accepts (fun ⟨_, _, h⟩ => by cases h) strategy _ s
  rw [trailing]
  split
  · cases hr : report strategy (s.arena.root.getD 0) s.trailingError s with
    | error a t =>
      rw [hr] at hreport
      exact hreport
    | ok _ t =>
      rw [hr] at hreport
      exact hreport.trans (.of_eq (raised_discardUntil ..))
  · exact .of_eq rfl

/-! ## Whole parses that refuse no floor -/

theorem mem_raised {entry : Entry} : e ∈ entry.raised options tokens ↔
    e ∈ (Result.state (entry.run options (.start (.ofList tokens)))).raised := by
  rw [Entry.raised, List.mem_reverse, endState_eq]

/-- A parse that refuses no floor from its start to its end. -/
theorem Accepts.not_refuses (entry : Entry)
    (h : Accepts (.start (.ofList tokens))
      (Result.state (entry.run options (.start (.ofList tokens)))))
    (he : e ∈ entry.raised options tokens) : ¬ e.Refuses := by
  obtain ⟨es, hes, hno⟩ := h
  rw [mem_raised, hes] at he
  exact hno e ((List.mem_append.mp he).resolve_right fun h => by cases h)

/-- **No floor is refused in a statement.** -/
theorem statement_accepts_floors (options : Options) (tokens : List Token) :
    Accepts (.start (.ofList tokens))
      (Result.state (Entry.statement.run options (.start (.ofList tokens)))) := by
  have haccepts {d : Nat} {res : Result} (h : Calls options.strategy options.maxDepth d .query 0
      (opened tokens) res) : Accepts (.start (.ofList tokens)) res.state := by
    have hcall : Executes options.strategy options.maxDepth d (.only .query) (opened tokens) res :=
      .single_call (x := fun _ => res) (by decide) h (opened_proper tokens)
    exact hcall.accepts orderly_only
  have hrun := run_runsTo .statement options tokens
  generalize Entry.statement.run options (.start (.ofList tokens)) = res at hrun ⊢
  cases hrun with
  | tooDeep =>
    have hdeep : Accepts (.start (.ofList tokens))
        (Result.state (failTooDeep options.maxDepth (opened tokens))) := .of_eq rfl
    exact hdeep.trans (closing_accepts _)
  | query _ h => exact ((haccepts h).trans (expectOneOf_accepts ..)).trans (closing_accepts _)
  | queryStop _ h => exact (haccepts h).trans (closing_accepts _)

/-- No floor is refused in an expression over a floor that it accepts. -/
theorem expression_accepts_floors (tokens : List Token)
    (hf : f ≤ Precedence.booleanMax ∨ options.maxDepth = 0) :
    Accepts (.start (.ofList tokens))
      (Result.state ((Entry.expression f).run options (.start (.ofList tokens)))) := by
  have haccepts {res : Result} (h : Calls options.strategy options.maxDepth options.maxDepth
      .booleanExpression f (.start (.ofList tokens)) res) :
      Accepts (.start (.ofList tokens)) res.state := by
    rcases hf with hf | hd
    · have hcall : Executes options.strategy options.maxDepth options.maxDepth
          (.call .booleanExpression f .done) (.start (.ofList tokens)) res :=
        .single_call (x := fun _ => res) (by decide) h (start_proper tokens)
      exact hcall.accepts ⟨⟨by decide, hf⟩, trivial⟩
    · rw [hd] at h
      cases h
      have hdeep : Accepts (.start (.ofList tokens))
          (Result.state (failTooDeep 0 (openedExpression tokens f))) := .of_eq rfl
      exact hdeep.trans (closing_accepts _)
  have hrun := run_runsTo (.expression f) options tokens
  generalize (Entry.expression f).run options (.start (.ofList tokens)) = res at hrun ⊢
  cases hrun with
  | expression h => exact (haccepts h).trans (trailing_accepts ..)
  | expressionStop h => exact haccepts h

/-! ## Nodes that stay where they are -/

/-- A script that does not wrap its node, and is over where it would look at the next token
again. -/
def Script.Still : Script → Prop
  | done => True
  | step m p => (∀ label, m ≠ .wrap label) ∧ p.Still
  | call _ _ p => p.Still
  | go q => ∀ w, q.script w = .done

/-- No operator is above a floor that is refused. -/
theorem unchecked_still (hf : Precedence.booleanMax < f) : (unchecked f w).Still := by
  have hgo : (go (.operators .logical f)).Still := by
    intro w
    simp only [Phase.script]
    cases hp : Climb.logical.precedence (next w) with
    | none => rfl
    | some e =>
      have hle : e + 1 ≤ Precedence.booleanMax := Climb.logical.succ_le_highestFloor hp
      exact if_pos (by omega)
  rw [unchecked]
  split
  · exact ⟨fun _ h => (by cases h), fun _ h => (by cases h), hgo⟩
  · split
    · exact ⟨fun _ h => (by cases h), hgo⟩
    · exact ⟨fun _ h => (by cases h), trivial⟩

theorem frames_fail (strategy : Strategy) (cause : SyntaxError.Cause) (expected : KindSet)
    (s : State) : (Result.state (fail strategy cause expected s)).frames = s.frames := by
  rw [fail_state]
  exact (report_keeps ..).2

theorem frames_run (hm : ∀ label, m ≠ .wrap label) (strategy : Strategy) (s : State) :
    (Result.state (m.run strategy s)).frames = s.frames := by
  cases m with
  | relabel label => rfl
  | wrap label => exact absurd rfl (hm label)
  | take set =>
    rw [Move.run, expectOneOf_eq]
    split
    · rfl
    · split
      · have hreport : (Result.state (reportHere strategy .extraneous set s)).frames = s.frames :=
          (report_keeps ..).2
        cases hr : reportHere strategy .extraneous set s with
        | ok _ t | error _ t =>
          rw [hr] at hreport
          exact hreport
      · exact frames_fail ..
  | check floor highest =>
    rw [Move.run, checkFloor]
    split
    · rfl
    · exact (report_keeps ..).2
  | fail expected => exact frames_fail ..
  | sync =>
    have hfail := frames_fail strategy .noViable Rule.query.follow s
    rw [Move.run, syncStage, recovering]
    split
    · rename_i t ht
      rw [ht] at hfail
      exact (recover_keeps t).1.trans hfail
    · exact hfail

/-- The innermost node is known by the open rules. -/
theorem Tracks.id_eq {y : Site} (h : Tracks s (x :: path)) (h' : Tracks s' (y :: path))
    (hframes : s'.frames = s.frames) : y.id = x.id := by
  rw [← h.node_eq, ← h'.node_eq, State.node, hframes, ← State.node]

/-- A rule that is called leaves the node above it where it is. -/
theorem Calls.keeps_node {r : Rule} (h : Calls strategy limit d r f s res) (hs : s.stream.Proper)
    (ht : Tracks s (x :: path)) : ∃ y, Tracks res.state (y :: path) ∧ y.id = x.id := by
  obtain ⟨v, hv, he⟩ := h.exists_nest hs
  obtain ⟨c, hc, -⟩ := he.tracks_nest ht
  rw [hv]
  exact ⟨_, hc, rfl⟩

/-- **The node of a still script stays where it is.** -/
theorem Executes.keeps_node (h : Executes strategy limit d p s res) (hp : p.Still)
    (ht : Tracks s (x :: path)) (hs : s.stream.Proper) :
    ∃ y, Tracks res.state (y :: path) ∧ y.id = x.id := by
  induction h generalizing x with
  | done => exact ⟨x, ht, rfl⟩
  | @step d m p s s' res hm h _ ih =>
    have he := m.run_evolves hm strategy hs
    have hframes := frames_run hp.1 strategy s
    rw [h] at he hframes
    obtain ⟨y, hy, -⟩ := he.tracks ht
    obtain ⟨z, hz, hid⟩ := ih hp.2 hy (he.advances.proper hs)
    exact ⟨z, hz, hid.trans (ht.id_eq hy hframes)⟩
  | @stop d m p s s' a hm h =>
    have he := m.run_evolves hm strategy hs
    have hframes := frames_run hp.1 strategy s
    rw [h] at he hframes
    obtain ⟨y, hy, -⟩ := he.tracks ht
    exact ⟨y, hy, ht.id_eq hy hframes⟩
  | @call d r f p s s' res res' _ hb hc _ _ ihp =>
    have hcall : Calls strategy limit (d + 1) r f s (.ok () s') := ⟨res', hb, hc.symm⟩
    obtain ⟨y, hy, hid⟩ := hcall.keeps_node hs ht
    obtain ⟨z, hz, hid'⟩ := ihp hp hy ((hcall.evolves hs).advances.proper hs)
    exact ⟨z, hz, hid'.trans hid⟩
  | @callStop d r f p s s' a res' _ hb hc =>
    have hcall : Calls strategy limit (d + 1) r f s (.error a s') := ⟨res', hb, hc.symm⟩
    exact hcall.keeps_node hs ht
  | @deep r f _ s =>
    have hcall : Calls strategy limit 0 r f s _ := rfl
    exact hcall.keeps_node hs ht
  | @go d q s res h ih =>
    refine ih ?_ ht hs
    rw [hp]
    trivial
  | idle => exact ⟨x, ht, rfl⟩

/-! ## A floor that is too high -/

/-- The error of a floor that is too high. -/
def refusal (tokens : List Token) (f : Nat) : SyntaxError :=
  (openedExpression tokens f).errorHere (.floorTooHigh f Precedence.booleanMax) ∅

/-- The state behind the check of a floor that is too high. -/
def refusing (strategy : Strategy) (tokens : List Token) (f : Nat) : State :=
  Result.state (reportHere strategy (.floorTooHigh f Precedence.booleanMax) ∅
    (openedExpression tokens f))

theorem refusal_refuses (tokens : List Token) (f : Nat) : (refusal tokens f).Refuses :=
  ⟨f, Precedence.booleanMax, rfl⟩

theorem raised_refusing (strategy : Strategy) (tokens : List Token) (f : Nat) :
    (refusing strategy tokens f).raised = [refusal tokens f] := by
  cases strategy <;> rfl

theorem refusing_bail (tokens : List Token) (f : Nat) :
    (refusing .bail tokens f).failure = some (.bailed (refusal tokens f)) := rfl

theorem errorAt_refusing (strategy : Strategy) (tokens : List Token) (f : Nat) :
    (refusing strategy tokens f).arena.errorAt 0 = some (refusal tokens f) := by
  have hspotless : (openedExpression tokens f).Spotless := (spotless_start _).enter ..
  have hlt : 0 < (openedExpression tokens f).arena.size :=
    (openedExpression_tracks tokens f).builds.lt_size List.mem_cons_self
  have hattach := Arena.errorAt_attach_self hlt (hspotless.errorAt_eq 0) (refusal tokens f)
  cases strategy <;> exact hattach

theorem refusing_blames (tokens : List Token) (f : Nat) :
    Blames (refusal tokens f) (refusing .recover tokens f) := by
  obtain ⟨t, -, ht, -, hblames, -⟩ := reportHere_agrees
    ((spotless_start (.ofList tokens)).enter (.ofRule .booleanExpression) f)
    (openedExpression_tracks tokens f) (.floorTooHigh f Precedence.booleanMax) ∅
  cases ht
  exact hblames

/-- A node keeps the error that it has. -/
theorem errorAt_invariant (id : NodeId) (e : SyntaxError) :
    Invariant fun s => s.arena.errorAt id = some e := by
  constructor
  case edit =>
    intro s s' h hs
    rcases h.errors with hsame | ⟨e', -, harena⟩
    · rw [hsame.errorAt_eq, hs]
    · rw [harena]
      exact Arena.errorAt_attach_of_some hs ..
  case enter => exact fun _ _ hs => ((Arena.sameErrors_openNode ..).errorAt_eq id).trans hs
  case leave => exact fun hs => ((sameErrors_leave _).errorAt_eq id).trans hs
  case consume => exact fun hs => ((Arena.sameErrors_push ..).errorAt_eq id).trans hs
  case trailing =>
    intro s strategy hs
    rcases trailing_errors strategy s with hsame | ⟨id', e', -, hsame⟩
    · rw [hsame.errorAt_eq, hs]
    · rw [hsame.errorAt_eq]
      exact Arena.errorAt_attach_of_some hs ..

/-- Behind a floor that is refused no other is, and the node stays where it is. -/
theorem refused_body (hf : Precedence.booleanMax < f)
    (h : Executes strategy limit d (opening .booleanExpression f w) (openedExpression tokens f)
      res) :
    Accepts (refusing strategy tokens f) res.state ∧
      Evolves (refusing strategy tokens f) res.state ∧
      (∃ y, Tracks res.state [y] ∧ y.id = 0) ∧
      (strategy = .bail → res = .error .halt (refusing strategy tokens f)) := by
  have hcheck : (Move.check f Precedence.booleanMax).run strategy (openedExpression tokens f) =
      reportHere strategy (.floorTooHigh f Precedence.booleanMax) ∅
        (openedExpression tokens f) := by
    rw [Move.run, checkFloor, if_neg (Nat.not_le.mpr hf)]
  obtain ⟨x, hx, hid⟩ : ∃ x, Tracks (refusing strategy tokens f) [x] ∧ x.id = 0 := by
    obtain ⟨e, hx⟩ := (openedExpression_tracks tokens f).report strategy
      (.floorTooHigh f Precedence.booleanMax) ∅
    exact ⟨_, hx, rfl⟩
  rw [opening_boolean] at h
  cases strategy with
  | bail =>
    -- The check is the last thing that happens.
    cases h with
    | step _ hm => cases hcheck.symm.trans hm
    | stop _ hm =>
      cases hcheck.symm.trans hm
      exact ⟨.of_eq rfl, .refl _, ⟨x, hx, hid⟩, fun _ => rfl⟩
  | recover =>
    -- Behind the check the rule goes on as any other, and makes no check of its own.
    cases h with
    | stop _ hm => cases hcheck.symm.trans hm
    | step _ hm h =>
      cases hcheck.symm.trans hm
      have hproper : (refusing .recover tokens f).stream.Proper := TokenStream.proper_ofList tokens
      obtain ⟨y, hy, hid'⟩ := h.keeps_node (unchecked_still hf) hx hproper
      exact ⟨h.accepts unchecked_orderly, h.evolves hproper, ⟨y, hy, hid'.trans hid⟩,
        fun h => by cases h⟩

/-- The root is known when the last rule ends. -/
theorem root_closing (ht : Tracks res.state [x]) (hs : res.state.stream.Proper) :
    (Result.state (closing res)).arena.root = some x.id := by
  have hleave {t : State} {y : Site} (ht : Tracks t [y]) : t.leave.arena.root = some y.id :=
    ht.leave_root.root_eq
  cases res with
  | ok _ t => exact hleave ht
  | error a t =>
    cases a with
    | halt => exact hleave ht
    | resync =>
      obtain ⟨y, hy, -⟩ := (recover_evolves t).tracks ht
      have hid : y.id = x.id := ht.id_eq hy (recover_keeps t).1
      rw [← hid, ← hleave hy, closing]
      cases recover t <;> rfl

theorem root_trailing (strategy : Strategy) (s : State) :
    (Result.state (trailing strategy s)).arena.root = s.arena.root := by
  have hreport := report_arena strategy (s.arena.root.getD 0) s.trailingError s
  rw [trailing]
  split
  · cases hr : report strategy (s.arena.root.getD 0) s.trailingError s with
    | error a t =>
      rw [hr] at hreport
      rcases hreport with h | h
      · exact congrArg Arena.root h
      · exact (congrArg Arena.root h).trans (Arena.root_attach ..)
    | ok _ t =>
      rw [hr] at hreport
      refine (dropRest_errors t _).2.2.trans ?_
      rcases hreport with h | h
      · exact congrArg Arena.root h
      · exact (congrArg Arena.root h).trans (Arena.root_attach ..)
  · rfl

/-- **What comes of a floor that is too high.** The parse goes on to its end without refusing any
other floor, and the node that tells of this one is the root. -/
theorem refused_standalone (hf : Precedence.booleanMax < f) (hd : options.maxDepth = d + 1)
    (tokens : List Token) :
    Accepts (refusing options.strategy tokens f)
        (Result.state (standalone options f (.start (.ofList tokens)))) ∧
      (Result.state (standalone options f (.start (.ofList tokens)))).arena.root = some 0 ∧
      (∀ P, Invariant P → P (refusing options.strategy tokens f) →
        P (Result.state (standalone options f (.start (.ofList tokens))))) ∧
      (options.strategy = .bail → standalone options f (.start (.ofList tokens)) =
        .error .halt (refusing options.strategy tokens f).leave) := by
  have hproper := start_proper tokens
  have hcall := standalone_calls options f tokens
  rw [standalone_eq]
  generalize parseRule options options.maxDepth .booleanExpression f (.start (.ofList tokens)) =
    res at hcall
  rw [hd] at hcall
  obtain ⟨body, hb, rfl⟩ := hcall
  obtain ⟨haccepts, hevolves, ⟨y, hy, hid⟩, hbail⟩ := refused_body hf hb
  have hend : body.state.stream.Proper := (hb.evolves hproper).advances.proper hproper
  have hroot := root_closing hy hend
  rw [hid] at hroot
  have haccepts := haccepts.trans (closing_accepts body)
  have hkeeps (P : State → Prop) (hP : Invariant P)
      (hs : P (refusing options.strategy tokens f)) : P (Result.state (closing body)) :=
    hP.closing (hP.evolves hevolves hs)
  have hbail (h : options.strategy = .bail) :
      closing body = .error .halt (refusing options.strategy tokens f).leave := by
    rw [hbail h, closing]
  cases hc : closing body with
  | error a t =>
    rw [hc] at haccepts hroot hkeeps hbail
    exact ⟨haccepts, hroot, hkeeps, hbail⟩
  | ok _ t =>
    rw [hc] at haccepts hroot hkeeps hbail
    refine ⟨haccepts.trans (trailing_accepts ..), (root_trailing ..).trans hroot, ?_, ?_⟩
    · -- Dropping the rest is one more thing that an invariant survives.
      exact fun P hP hs => hP.trailing _ (hkeeps P hP hs)
    · intro h
      cases hbail h

/-- **A floor that is too high is refused** once, at the root and before all other errors. -/
theorem expression_refuses (hf : Precedence.booleanMax < f) (hd : 1 ≤ options.maxDepth)
    (hne : (TokenStream.ofList tokens).isEmpty = false) :
    (∃ rest, (Entry.expression f).raised options tokens = refusal tokens f :: rest ∧
      ∀ e ∈ rest, ¬ e.Refuses) ∧
    (∃ root, (endState ((Entry.expression f).run options) (.start (.ofList tokens))).arena.root =
        some root ∧
      (endState ((Entry.expression f).run options) (.start (.ofList tokens))).arena.errorAt root =
        some (refusal tokens f)) ∧
    (∀ tree, parseExpressionTokens options f tokens = .ok tree →
      (tree.node tree.root).error = some (refusal tokens f) ∧
        tree.diagnostics.head? = some (refusal tokens f)) ∧
    (options.strategy = .bail →
      parseExpressionTokens options f tokens = .error (.bailed (refusal tokens f))) := by
  obtain ⟨d, hd⟩ := Nat.exists_eq_add_of_le' hd
  obtain ⟨⟨es, hes, hno⟩, hroot, hkeeps, hbail⟩ := refused_standalone hf hd tokens
  rw [raised_refusing] at hes
  have herror := hkeeps _ (errorAt_invariant 0 _) (errorAt_refusing options.strategy tokens f)
  have hstopped (h : options.strategy = .bail) :
      parseExpressionTokens options f tokens = .error (.bailed (refusal tokens f)) := by
    rw [parseExpressionTokens, run_eq, hne, if_neg Bool.false_ne_true, hbail h]
    refine finish_of_failure ((failure_leave _).trans ?_)
    rw [h, refusing_bail]
  refine ⟨⟨es.reverse, ?_, ?_⟩, ⟨0, ?_, ?_⟩, fun tree htree => ?_, hstopped⟩
  · rw [Entry.raised, endState_eq]
    exact (congrArg List.reverse hes).trans (by rw [List.reverse_append]; rfl)
  · exact fun e he => hno e (List.mem_reverse.mp he)
  · rw [endState_eq]
    exact hroot
  · rw [endState_eq]
    exact herror
  · have hparse : (Entry.expression f).parse options tokens = .ok tree := htree
    have hyields := (parse_yields hparse).2
    have hsame : tree.root = 0 := Option.some.inj (hyields.root_eq.symm.trans hroot)
    refine ⟨?_, ?_⟩
    · rw [hsame, hyields.error_eq]
      exact herror
    · -- Only a parse that recovers has a tree, and it has met this error first.
      have hrecover : options.strategy = .recover := by
        cases h : options.strategy with
        | recover => rfl
        | bail => cases htree.symm.trans (hstopped h)
      have hblames := hkeeps _ (blames_invariant (refusal tokens f))
      rw [hrecover] at hblames
      rw [parse_eq_finish (.expression f) hne] at hparse
      exact (hblames (refusing_blames tokens f)).head?_diagnostics hparse

end Parser

end PipeQuery

import Mathlib.Data.Nat.Find
import PipeQuery.Proofs.Parser.Course
import PipeQuery.Proofs.Parser.Depth

/-!
# The limit on open rules

A parse looks at the limit on open rules only where it opens one too many, and that is the end of
it. So a parse that stays below one limit comes to the same end below any higher one, whatever
errors it meets on its way. How many rules are open at once is bounded by the tokens: no rule comes
back to itself before it has matched one.

## Main definitions

* `State.Deep`: a state in which too many rules were opened

## Main results

* `Executes.shallow`: a script that is allowed enough rules does not open too many
* `Executes.deepen`: a script that does not open too many rules does the same below a higher limit
* `Executes.unique`: what a script does is determined
* `parse_limit`: the limit cuts parses off at some depth, and changes nothing else
* `threshold_pos_iff`: only the empty input is not cut off at all
-/

namespace PipeQuery.Parser

open Token (Kind KindSet)

/-- Too many rules were opened. -/
def State.Deep (s : State) : Prop := ∃ e, s.failure = some (.tooDeep e)

variable {strategy : Strategy} {limit limit' d d' f b c : Nat} {p : Script} {r : Rule} {m : Move}
  {s s' t : State} {res res' : Result} {tokens : List Token} {options options' : Options}

/-! ## Steps open no rules -/

theorem State.Going.not_deep (h : s.Going) : ¬ s.Deep := by
  rintro ⟨e, he⟩
  rw [h.failure_eq] at he
  cases he

/-- The first reason for the end of a parse is kept, so a reason that is given for an error hides no
other. -/
theorem deep_terminate {failure : Failure} (hf : ∀ e, failure ≠ .tooDeep e)
    (h : (s.terminate failure).Deep) : s.Deep := by
  obtain ⟨e, he⟩ := h
  rcases Option.or_eq_some_iff.mp he with hs | ⟨-, hnew⟩
  · exact ⟨e, hs⟩
  · exact absurd (Option.some.inj hnew) (hf e)

theorem deep_report (strategy : Strategy) (id : NodeId) (e : SyntaxError)
    (h : (Result.state (report strategy id e s)).Deep) : s.Deep := by
  rw [report_state] at h
  split at h
  · exact h
  · cases strategy with
    | bail => exact deep_terminate (s := s.raise id e) (fun e => by simp) h
    | recover => exact h

theorem deep_fail {cause : SyntaxError.Cause} {expected : KindSet}
    (h : (Result.state (fail strategy cause expected s)).Deep) : s.Deep := by
  rw [fail_state] at h
  exact deep_report _ _ _ h

theorem deep_recover (h : (Result.state (recover s)).Deep) : s.Deep := by
  obtain ⟨hf, -, -⟩ :=
    discardUntil_keeps s.node s.resyncSet s.stream.remaining { s with recovering := true }
  have hdrop (h : (State.discardUntil s.node s.resyncSet s.stream.remaining
      { s with recovering := true }).Deep) : s.Deep := by
    rw [State.Deep, hf] at h
    exact h
  rw [recover] at h
  split at h
  · split at h
    · exact hdrop (deep_terminate (fun e => by simp) h)
    · exact hdrop h
  · exact hdrop h

theorem deep_expectOneOf {set : KindSet}
    (h : (Result.state (expectOneOf strategy set s)).Deep) : s.Deep := by
  rw [expectOneOf_eq] at h
  split at h
  · exact h
  · split at h
    · have hreport : (Result.state (reportHere strategy .extraneous set s)).Deep := by
        revert h
        cases reportHere strategy .extraneous set s <;> exact id
      exact deep_report _ _ _ hreport
    · exact deep_fail h

/-- **No step opens a rule.** -/
theorem deep_run (h : (Result.state (m.run strategy s)).Deep) : s.Deep := by
  cases m with
  | relabel label => exact h
  | wrap label =>
    change (s.wrap label).Deep at h
    rwa [State.Deep, failure_wrap] at h
  | take set => exact deep_expectOneOf h
  | check floor highest =>
    rw [Move.run, checkFloor] at h
    split at h
    · exact h
    · exact deep_report _ _ _ h
  | fail expected => exact deep_fail h
  | sync =>
    rw [Move.run, syncStage, recovering] at h
    split at h
    · rename_i t ht
      have hfail : (Result.state (fail strategy .noViable Rule.query.follow s)).Deep := by
        rw [ht]
        exact deep_recover h
      exact deep_fail hfail
    · exact deep_fail h

theorem deep_leave : s.leave.Deep ↔ s.Deep := by
  rw [State.Deep, failure_leave, State.Deep]

theorem deep_closing (h : (Result.state (closing res)).Deep) : (Result.state res).Deep := by
  cases res with
  | ok _ t => exact deep_leave.mp h
  | error a t =>
    cases a with
    | halt => exact deep_leave.mp h
    | resync =>
      have hrecover : (Result.state (recover t)).Deep := by
        rw [closing] at h
        revert h
        cases recover t <;> exact deep_leave.mp
      exact deep_recover hrecover

/-- A rule passes on that too many rules were opened below it. -/
theorem deep_of_ends (hends : Ends res) (h : (Result.state res).Deep) :
    (∀ t, res ≠ .ok () t) ∧ (Result.state (closing res)).Deep := by
  cases res with
  | ok _ t => exact absurd h (State.Going.not_deep hends)
  | error a t =>
    cases a with
    | halt => exact ⟨(fun _ ht => by cases ht), deep_leave.mpr h⟩
    | resync => exact absurd h hends.1.not_deep

theorem deep_failTooDeep (h : s.failure = none) (limit : Nat) :
    (Result.state (closing (failTooDeep limit s))).Deep := by
  refine deep_leave.mpr ⟨s.errorHere (.tooDeep limit) ∅, ?_⟩
  show s.failure.or _ = _
  rw [h, Option.none_or]

/-! ## Enough rules are allowed -/

theorem length_consume {x : TokenStream} (hx : x.Proper) (hk : x.kindAt 1 ≠ .endOfInput) :
    x.consume.coming.length < x.coming.length := by
  have hne : x.coming ≠ [] := fun hnil => hk (by rw [hx.kindAt_one, hnil, next_nil])
  obtain ⟨k, w, hw⟩ := List.exists_cons_of_ne_nil hne
  obtain ⟨-, hw', -⟩ := hx.consume hw
  rw [hw, hw', List.length_cons]
  exact Nat.lt_succ_self _

/-- A token that is matched is read, and so is a stray one before it. -/
theorem length_expectOneOf {set : KindSet} (hset : set.contains .endOfInput = false)
    (hs : s.stream.Proper) (h : expectOneOf strategy set s = .ok () s') :
    s'.coming.length < s.coming.length := by
  rw [expectOneOf_eq] at h
  split at h
  · rename_i hk
    cases h
    exact length_consume hs (KindSet.ne_of_contains hset hk)
  · split at h
    · rename_i hstray
      simp only [ne_eq, Bool.and_eq_true, decide_eq_true_eq] at hstray
      cases hr : reportHere strategy .extraneous set s with
      | error a t =>
        rw [hr] at h
        cases h
      | ok _ t =>
        rw [hr] at h
        cases h
        have hstream := (reportHere_ok hr).1
        have hlt : s.stream.consume.coming.length < s.coming.length := length_consume hs hstray.1
        -- The stray token is gone, and the one that is matched behind it.
        refine Nat.lt_of_le_of_lt ?_ hlt
        show t.stream.consume.consume.coming.length ≤ _
        rw [hstream]
        exact (advances_consume _).length_le ((advances_consume _).proper hs)
    · exact absurd h fail_ne_ok

/-- What a step allows to be opened is not more than before, counting the tokens to come. -/
theorem Script.Affordable.of_run (h : (step m p).Affordable b) (hm : m.Plain)
    (hs : s.stream.Proper) (hrun : m.run strategy s = .ok () s') :
    s'.stream.Proper ∧
      ∃ c, p.Affordable c ∧ c + 4 * s'.coming.length ≤ b + 4 * s.coming.length := by
  have hstep := (Move.run_evolves hm strategy hs).advances
  rw [hrun] at hstep
  have hlen : s'.coming.length ≤ s.coming.length := hstep.length_le hs
  refine ⟨hstep.proper hs, ?_⟩
  cases m with
  | take set =>
    have hlt := length_expectOneOf hm hs hrun
    exact ⟨b + 4, h, by omega⟩
  | relabel | wrap | check | fail | sync => exact ⟨b, h, by omega⟩

/-- **A script that is allowed enough rules does not open too many**, whatever errors it meets. -/
theorem Executes.shallow (h : Executes strategy limit d p s res) (hs : s.stream.Proper)
    (hp : p.Affordable b) (hd : b + 4 * s.coming.length ≤ d) (hdeep : (Result.state res).Deep) :
    s.Deep := by
  -- By induction on the execution: what is allowed decreases with the tokens to come.
  induction h generalizing b with
  | done => exact hdeep
  | @step d m p s s' res hm h _ ih =>
    obtain ⟨hs', c, hp, hc⟩ := hp.of_run hm hs h
    have hstep : (Result.state (m.run strategy s)).Deep := by
      rw [h]
      exact ih hs' hp (Nat.le_trans hc hd) hdeep
    exact deep_run hstep
  | @stop d m p s s' a hm h =>
    have hstep : (Result.state (m.run strategy s)).Deep := by
      rw [h]
      exact hdeep
    exact deep_run hstep
  | @call d r f p s s' res res' hr hb hc _ ihb ihp =>
    obtain ⟨hheight, hp⟩ := hp
    have hadv := (hb.evolves hs).closing.advances
    rw [hc] at hadv
    have hlen : s'.coming.length ≤ s.coming.length := hadv.length_le hs
    refine ihb hs (opening_affordable r f s.coming) ?_ (deep_closing ?_)
    · show r.height + 4 * s.coming.length ≤ d
      omega
    · rw [hc]
      exact ihp (hadv.proper hs) hp (by omega) hdeep
  | @callStop d r f p s s' a res' hr hb hc ihb =>
    refine ihb hs (opening_affordable r f s.coming) ?_ (deep_closing ?_)
    · show r.height + 4 * s.coming.length ≤ d
      have hheight := hp.1
      omega
    · rw [hc]
      exact hdeep
  | @deep r f p s hr =>
    have hheight := hp.1
    omega
  | @go d q s res _ ih =>
    have hheight : q.height ≤ b := hp
    exact ih hs (q.script_affordable s.coming) (by omega) hdeep
  | idle => exact hdeep

theorem Calls.shallow (h : Calls strategy limit d r f s res) (hs : s.stream.Proper)
    (hd : r.height + 4 * s.coming.length < d) (hdeep : (Result.state res).Deep) : s.Deep := by
  cases d with
  | zero => omega
  | succ d =>
    obtain ⟨res', hb, rfl⟩ := h
    exact hb.shallow hs (opening_affordable r f s.coming) (Nat.le_of_lt_succ hd)
      (deep_closing hdeep)

/-! ## More rules are allowed -/

/-- **A script that does not open too many rules does the same below a higher limit.** -/
theorem Executes.deepen (h : Executes strategy limit d p s res) (hs : s.Going)
    (hdeep : ¬ (Result.state res).Deep) (limit' : Nat) (hd : d ≤ d') :
    Executes strategy limit' d' p s res := by
  -- The limit itself is read nowhere but where a rule is one too many.
  induction h generalizing d' with
  | done => exact .done
  | @step d m p s s' res hm h _ ih =>
    have hs' := m.run_ends hs strategy
    rw [h] at hs'
    exact .step hm h (ih hs' hdeep hd)
  | stop hm h => exact .stop hm h
  | @call d r f p s s' res res' hr hb hc _ ihb ihp =>
    cases d' with
    | zero => omega
    | succ d' =>
      have hs₀ : (s.enter (.ofRule r) f).Going := ⟨hs.failure_eq, hs.lastError⟩
      have hs' := (closing_ends (hb.ends hs₀)).1
      rw [hc] at hs'
      refine .call hr (ihb hs₀ (fun hbody => ?_) (Nat.le_of_succ_le_succ hd)) hc (ihp hs' hdeep hd)
      -- The rule that is called has come to an end, so it did not open too many.
      have hclosed := (deep_of_ends (hb.ends hs₀) hbody).2
      rw [hc] at hclosed
      exact hs'.not_deep hclosed
  | @callStop d r f p s s' a res' hr hb hc ihb =>
    cases d' with
    | zero => omega
    | succ d' =>
      have hs₀ : (s.enter (.ofRule r) f).Going := ⟨hs.failure_eq, hs.lastError⟩
      refine .callStop hr (ihb hs₀ (fun hbody => hdeep ?_) (Nat.le_of_succ_le_succ hd)) hc
      have hclosed := (deep_of_ends (hb.ends hs₀) hbody).2
      rwa [hc] at hclosed
  | @deep r f p s hr =>
    exact absurd (deep_failTooDeep (s := s.enter (.ofRule r) f) hs.failure_eq _) hdeep
  | go _ ih => exact .go (ih hs hdeep hd)
  | idle h hk hq => exact .idle h hk hq

/-- Looking for a place to go on where it begins comes to nothing, however often it is done. -/
theorem Executes.idle_eq (h : Executes strategy limit d p s res)
    (hp : p = .go (.stages f) ∨ p = .step .sync (.go (.stages f))) (hr : s.recovering = true)
    (hk : s.resyncSet.contains (s.kindAt 1) = true)
    (hq : (Phase.stages f).script s.coming = .step .sync (.go (.stages f))) : res = .ok () s := by
  -- The loop and the search it starts with lead back to each other, so both are followed.
  induction h with
  | done | call | callStop | deep => rcases hp with hp | hp <;> cases hp
  | step _ hrun _ ih =>
    rcases hp with hp | hp
    · cases hp
    · cases hp
      rw [Move.run, syncStage_idle hr hk] at hrun
      cases hrun
      exact ih (.inl rfl) hr hk hq
  | stop _ hrun =>
    rcases hp with hp | hp
    · cases hp
    · cases hp
      rw [Move.run, syncStage_idle hr hk] at hrun
      cases hrun
  | go _ ih =>
    rcases hp with hp | hp
    · cases hp
      exact ih (.inr hq) hr hk hq
    · cases hp
  | idle => rfl

/-- **What a script does is determined.** -/
theorem Executes.unique (h : Executes strategy limit d p s res)
    (h' : Executes strategy limit d p s res') : res = res' := by
  -- What a step or a called rule comes to decides which rule of execution applies next.
  induction h generalizing res' with
  | done =>
    cases h'
    rfl
  | step hm h _ ih =>
    cases h' with
    | step _ h' hp =>
      rw [h] at h'
      cases h'
      exact ih hp
    | stop _ h' =>
      rw [h] at h'
      cases h'
  | stop hm h =>
    cases h' with
    | step _ h' =>
      rw [h] at h'
      cases h'
    | stop _ h' =>
      rw [h] at h'
      cases h'
      rfl
  | call _ _ hc _ ihb ihp =>
    cases h' with
    | call _ hb' hc' hp' =>
      rw [ihb hb', hc'] at hc
      cases hc
      exact ihp hp'
    | callStop _ hb' hc' =>
      rw [ihb hb', hc'] at hc
      cases hc
  | callStop _ _ hc ihb =>
    cases h' with
    | call _ hb' hc' =>
      rw [ihb hb', hc'] at hc
      cases hc
    | callStop _ hb' hc' =>
      rw [ihb hb', hc'] at hc
      cases hc
      rfl
  | deep =>
    cases h'
    rfl
  | go h ih =>
    cases h' with
    | go h' => exact ih h'
    | idle hr hk hq => exact (Executes.go h).idle_eq (.inl rfl) hr hk hq
  | idle hr hk hq => exact (h'.idle_eq (.inl rfl) hr hk hq).symm

/-! ## The limit of a parse -/

/-- **A rule does the same below a higher limit**, if it does not open too many rules. -/
theorem parseRule_deepen (hstrategy : options'.strategy = options.strategy)
    (hr : r ≠ .singleStatement) (hs : s.Going) (hproper : s.stream.Proper) (hd : d ≤ d')
    (hdeep : ¬ (Result.state (parseRule options d r f s)).Deep) :
    parseRule options' d' r f s = parseRule options d r f s := by
  have h := parseRule_calls options (d := d) (f := f) hr hproper
  have h' := parseRule_calls options' (d := d') (f := f) hr hproper
  rw [hstrategy] at h'
  cases d with
  | zero =>
    rw [Calls] at h
    rw [h] at hdeep
    exact absurd (deep_failTooDeep (s := s.enter (.ofRule r) f) hs.failure_eq _) hdeep
  | succ d =>
    cases d' with
    | zero => omega
    | succ d' =>
      obtain ⟨res, hb, hres⟩ := h
      obtain ⟨res', hb', hres'⟩ := h'
      have hs₀ : (s.enter (.ofRule r) f).Going := ⟨hs.failure_eq, hs.lastError⟩
      -- What does not open too many rules below `d` is also what is executed below `d'`.
      have hdeepen := hb.deepen hs₀ (fun hbody => hdeep ?_) options'.maxDepth
        (Nat.le_of_succ_le_succ hd)
      · rw [hres, hres', hdeepen.unique hb']
      · rw [hres]
        exact (deep_of_ends (hb.ends hs₀) hbody).2

theorem start_going (tokens : List Token) : (State.start (.ofList tokens)).Going :=
  ⟨rfl, fun h => by cases h⟩

/-- Below the limit zero no rule may be open. -/
theorem run_zero_deep (entry : Entry) (strategy : Strategy) (tokens : List Token) :
    (Result.state (entry.run ⟨0, strategy⟩ (.start (.ofList tokens)))).Deep := by
  cases entry with
  | statement =>
    show (Result.state (parseRule ⟨0, strategy⟩ 0 .singleStatement 0 _)).Deep
    rw [parseRule, within_eq]
    exact deep_failTooDeep (s := opened tokens) rfl _
  | expression floor =>
    show (Result.state (standalone ⟨0, strategy⟩ floor _)).Deep
    rw [standalone_eq, parseRule, within_eq]
    exact deep_failTooDeep (s := openedExpression tokens floor) rfl _

theorem statement_deepen (hd : d ≤ d')
    (hdeep : ¬ (Result.state (Entry.statement.run ⟨d, strategy⟩ (.start (.ofList tokens)))).Deep) :
    Entry.statement.run ⟨d', strategy⟩ (.start (.ofList tokens)) =
      Entry.statement.run ⟨d, strategy⟩ (.start (.ofList tokens)) := by
  cases d with
  | zero => exact absurd (run_zero_deep .statement strategy tokens) hdeep
  | succ d =>
    cases d' with
    | zero => omega
    | succ d' =>
      change ¬ (Result.state (parseRule ⟨d + 1, strategy⟩ (d + 1) .singleStatement 0 _)).Deep
        at hdeep
      show parseRule ⟨d' + 1, strategy⟩ (d' + 1) .singleStatement 0 _ =
        parseRule ⟨d + 1, strategy⟩ (d + 1) .singleStatement 0 _
      rw [parseRule_statement] at hdeep
      rw [parseRule_statement, parseRule_statement]
      have hs := opened_going tokens
      have hends := ((query_calls ⟨d + 1, strategy⟩ d tokens).ends hs).1
      -- The query is the only rule that a statement calls.
      have heq : parseRule ⟨d' + 1, strategy⟩ d' .query 0 (opened tokens) =
          parseRule ⟨d + 1, strategy⟩ d .query 0 (opened tokens) := by
        refine parseRule_deepen rfl (by decide) hs (opened_proper tokens)
          (Nat.le_of_succ_le_succ hd) fun hquery => hdeep ?_
        cases hq : parseRule ⟨d + 1, strategy⟩ d .query 0 (opened tokens) with
        | ok _ u =>
          rw [hq] at hends hquery
          exact absurd hquery hends.not_deep
        | error a u =>
          rw [hq] at hends hquery
          exact (deep_of_ends hends hquery).2
      rw [heq]

theorem expression_deepen (hd : d ≤ d')
    (hdeep : ¬ (Result.state
      ((Entry.expression f).run ⟨d, strategy⟩ (.start (.ofList tokens)))).Deep) :
    (Entry.expression f).run ⟨d', strategy⟩ (.start (.ofList tokens)) =
      (Entry.expression f).run ⟨d, strategy⟩ (.start (.ofList tokens)) := by
  change ¬ (Result.state (standalone ⟨d, strategy⟩ f _)).Deep at hdeep
  show standalone ⟨d', strategy⟩ f _ = standalone ⟨d, strategy⟩ f _
  rw [standalone_eq] at hdeep
  rw [standalone_eq, standalone_eq]
  have hs := start_going tokens
  have hproper := start_proper tokens
  have hends := ((standalone_calls ⟨d, strategy⟩ f tokens).ends hs).1
  have heq : parseRule ⟨d', strategy⟩ d' .booleanExpression f (.start (.ofList tokens)) =
      parseRule ⟨d, strategy⟩ d .booleanExpression f (.start (.ofList tokens)) := by
    refine parseRule_deepen rfl (by decide) hs hproper hd fun hrule => hdeep ?_
    cases hq : parseRule ⟨d, strategy⟩ d .booleanExpression f (.start (.ofList tokens)) with
    | ok _ u =>
      rw [hq] at hends hrule
      exact absurd hrule hends.not_deep
    | error a u =>
      rw [hq] at hrule
      exact hrule
  rw [heq]

/-- **A parse below a higher limit does the same**, if it does not open too many rules. -/
theorem run_deepen (entry : Entry) (hd : d ≤ d')
    (hdeep : ¬ (Result.state (entry.run ⟨d, strategy⟩ (.start (.ofList tokens)))).Deep) :
    entry.run ⟨d', strategy⟩ (.start (.ofList tokens)) =
      entry.run ⟨d, strategy⟩ (.start (.ofList tokens)) := by
  cases entry with
  | statement => exact statement_deepen hd hdeep
  | expression floor => exact expression_deepen hd hdeep

theorem deep_trailing (h : (Result.state (trailing strategy s)).Deep) : s.Deep := by
  rw [trailing] at h
  split at h
  · have hreport :
        (Result.state (report strategy (s.arena.root.getD 0) s.trailingError s)).Deep := by
      cases hr : report strategy (s.arena.root.getD 0) s.trailingError s with
      | ok _ u =>
        rw [hr] at h
        have hf := (discardUntil_keeps (s.arena.root.getD 0) ∅ u.stream.remaining u).1
        obtain ⟨e, he⟩ := h
        exact ⟨e, hf.symm.trans he⟩
      | error a u =>
        rw [hr] at h
        exact h
    exact deep_report _ _ _ hreport
  · exact h

/-- **A parse that is allowed enough rules does not open too many**, whatever errors it meets. -/
theorem run_shallow (entry : Entry) (hd : 4 * (TokenStream.body tokens).length + 8 ≤ d) :
    ¬ (Result.state (entry.run ⟨d, strategy⟩ (.start (.ofList tokens)))).Deep := by
  have hlen (s : State) (hs : s.stream = .ofList tokens) :
      s.coming.length = (TokenStream.body tokens).length := by
    rw [State.coming, hs, TokenStream.coming_ofList, List.length_map]
  -- A query is six rules high and an expression five, and each token allows four more.
  have hquery {d' : Nat} {res : Result} (hd' : d = d' + 1)
      (h : Calls strategy d d' .query 0 (opened tokens) res) : ¬ res.state.Deep := by
    refine fun hdeep => (opened_going tokens).not_deep (h.shallow (opened_proper tokens) ?_ hdeep)
    rw [hlen _ rfl]
    show 6 + _ < d'
    omega
  have hexpression {floor : Nat} {res : Result}
      (h : Calls strategy d d .booleanExpression floor (.start (.ofList tokens)) res) :
      ¬ res.state.Deep := by
    refine fun hdeep => (start_going tokens).not_deep (h.shallow (start_proper tokens) ?_ hdeep)
    rw [hlen _ rfl]
    show 5 + _ < d
    omega
  have hrun := run_runsTo entry ⟨d, strategy⟩ tokens
  generalize entry.run ⟨d, strategy⟩ (.start (.ofList tokens)) = res at hrun ⊢
  cases hrun with
  | tooDeep hd' =>
    have hzero : d = 0 := hd'
    omega
  | query hd' h => exact fun hdeep => hquery hd' h (deep_expectOneOf (deep_closing hdeep))
  | queryStop hd' h => exact fun hdeep => hquery hd' h (deep_closing hdeep)
  | expression h => exact fun hdeep => hexpression h (deep_trailing hdeep)
  | expressionStop h => exact hexpression h

/-! ## The outcome of a parse -/

theorem parse_tooDeep_iff (entry : Entry) (hne : (TokenStream.ofList tokens).isEmpty = false) :
    (∃ e, entry.parse options tokens = .error (.tooDeep e)) ↔
      (Result.state (entry.run options (.start (.ofList tokens)))).Deep := by
  rw [parse_eq_finish entry hne]
  refine exists_congr fun e => ⟨fun h => ?_, finish_of_failure⟩
  rw [finish] at h
  split at h
  · rename_i hf
    cases h
    exact hf
  · cases h
  · cases h

theorem parse_of_isEmpty (entry : Entry) (hempty : (TokenStream.ofList tokens).isEmpty = true) :
    entry.parse options tokens = .error .emptyInput := by
  cases entry <;> exact (run_eq ..).trans (if_pos hempty)

/-- The outcome of a parse that does not open too many rules stays below higher limits. -/
theorem parse_deepen (entry : Entry) (hd : d ≤ d')
    (hdeep : ∀ e, entry.parse ⟨d, strategy⟩ tokens ≠ .error (.tooDeep e)) :
    entry.parse ⟨d', strategy⟩ tokens = entry.parse ⟨d, strategy⟩ tokens := by
  cases hempty : (TokenStream.ofList tokens).isEmpty with
  | true => rw [parse_of_isEmpty entry hempty, parse_of_isEmpty entry hempty]
  | false =>
    have hrun := run_deepen entry hd fun h =>
      ((parse_tooDeep_iff entry hempty).mpr h).elim hdeep
    rw [parse_eq_finish entry hempty, parse_eq_finish entry hempty, hrun]

theorem parse_shallow (entry : Entry) (hd : 4 * (TokenStream.body tokens).length + 8 ≤ d)
    (e : SyntaxError) : entry.parse ⟨d, strategy⟩ tokens ≠ .error (.tooDeep e) := by
  intro h
  cases hempty : (TokenStream.ofList tokens).isEmpty with
  | true =>
    rw [parse_of_isEmpty entry hempty] at h
    cases h
  | false => exact run_shallow entry hd ((parse_tooDeep_iff entry hempty).mp ⟨e, h⟩)

theorem parse_zero_iff (entry : Entry) :
    (∃ e, entry.parse ⟨0, strategy⟩ tokens = .error (.tooDeep e)) ↔
      (TokenStream.ofList tokens).isEmpty = false := by
  constructor
  · rintro ⟨e, h⟩
    refine Bool.eq_false_iff.mpr fun hempty => ?_
    rw [parse_of_isEmpty entry hempty] at h
    cases h
  · exact fun hne => (parse_tooDeep_iff entry hne).mpr (run_zero_deep entry strategy tokens)

/-- **The limit cuts parses off at some depth, and changes nothing else.** Below some limit, which
is linear in the number of tokens, a parse ends since too many rules are open; from there on it
always comes to the same tree, or to the same error, and never to this one. So raising the limit
never changes another outcome than this. -/
theorem parse_limit (entry : Entry) (strategy : Strategy) (tokens : List Token) :
    ∃ D ≤ 4 * (TokenStream.body tokens).length + 12,
      (∀ d < D, ∃ e, entry.parse ⟨d, strategy⟩ tokens = .error (.tooDeep e)) ∧
      (∀ d ≥ D, entry.parse ⟨d, strategy⟩ tokens = entry.parse ⟨D, strategy⟩ tokens ∧
        ∀ e, entry.parse ⟨d, strategy⟩ tokens ≠ .error (.tooDeep e)) ∧
      ∀ d d', d ≤ d' → (∀ e, entry.parse ⟨d, strategy⟩ tokens ≠ .error (.tooDeep e)) →
        entry.parse ⟨d', strategy⟩ tokens = entry.parse ⟨d, strategy⟩ tokens := by
  classical
  have hexists : ∃ d, ∀ e, entry.parse ⟨d, strategy⟩ tokens ≠ .error (.tooDeep e) :=
    ⟨_, parse_shallow entry (Nat.le_refl _)⟩
  -- The least limit that does not cut the parse off is the threshold.
  have hleast := Nat.find_spec hexists
  refine ⟨Nat.find hexists, ?_, fun d hd => ?_, fun d hd => ?_, fun d d' => parse_deepen entry⟩
  · exact Nat.find_min' hexists (parse_shallow entry (Nat.add_le_add_left (by decide) _))
  · have hdeep := Nat.find_min hexists hd
    rwa [not_forall_not] at hdeep
  · have hsame := parse_deepen entry hd hleast
    exact ⟨hsame, hsame ▸ hleast⟩

/-- **The threshold is positive** for every input but the empty one, which is not parsed at all. -/
theorem threshold_pos_iff (entry : Entry) {D : Nat}
    (hbelow : ∀ d < D, ∃ e, entry.parse ⟨d, strategy⟩ tokens = .error (.tooDeep e))
    (habove : ∀ d ≥ D, ∀ e, entry.parse ⟨d, strategy⟩ tokens ≠ .error (.tooDeep e)) :
    0 < D ↔ (TokenStream.ofList tokens).isEmpty = false := by
  constructor
  · exact fun hpos => (parse_zero_iff entry).mp (hbelow 0 hpos)
  · intro hne
    obtain ⟨e, hdeep⟩ := (parse_zero_iff entry).mpr hne
    refine Nat.pos_of_ne_zero fun hzero => ?_
    exact habove 0 (Nat.le_of_eq hzero) e hdeep

end PipeQuery.Parser

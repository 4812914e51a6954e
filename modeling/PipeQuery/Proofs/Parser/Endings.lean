import PipeQuery.Proofs.Parser.Bodies

/-!
# How parts of a parse end

A parse goes on as long as it has no reason to be over. A part of it that looks for a place to go on
has an error to tell of, so when the input ends first, there is a reason: a parse never halts
without one.

## Main definitions

* `State.Going`: a state from which a parse goes on
* `Ends`: how a part of a parse ends

## Main results

* `Executes.ends`, `Calls.ends`: a script that halts has a reason
-/

namespace PipeQuery.Parser

open Token (Kind KindSet)

/-- A state from which a parse goes on: while it recovers, it knows the error that it recovers
from. -/
structure State.Going (s : State) : Prop where
  failure_eq : s.failure = none
  lastError : s.recovering = true → s.lastError.isSome = true

/-- How a part of a parse ends: a rule is left with an error only while the parse recovers, and the
parse halts only for a reason. -/
def Ends : Result → Prop
  | .ok _ s => s.Going
  | .error .resync s => s.Going ∧ s.recovering = true
  | .error .halt s => s.failure.isSome = true

variable {strategy : Strategy} {limit d : Nat} {p : Script} {r : Rule} {f : Nat} {s s' : State}
  {res : Result} {m : Move}

theorem isSome_terminate (s : State) (failure : Failure) :
    (s.terminate failure).failure.isSome = true := by
  rw [State.terminate]
  cases s.failure <;> rfl

theorem State.Going.consume (h : s.Going) : s.consume.Going :=
  ⟨h.failure_eq, fun hr => by cases hr⟩

theorem State.Going.leave (h : s.Going) : s.leave.Going := by
  rw [State.leave]
  split
  · exact h
  · exact ⟨h.failure_eq, h.lastError⟩

theorem State.Going.wrap (h : s.Going) (label : Label) : (s.wrap label).Going := by
  rw [State.wrap]
  split
  · exact h
  · exact ⟨h.failure_eq, h.lastError⟩

theorem report_ends (h : s.Going) (strategy : Strategy) (id : NodeId) (e : SyntaxError) :
    Ends (report strategy id e s) := by
  rw [report]
  split
  · exact h
  · cases strategy with
    | recover => exact ⟨h.failure_eq, fun _ => rfl⟩
    | bail => exact isSome_terminate _ _

theorem reportHere_ends (h : s.Going) (strategy : Strategy) (cause : SyntaxError.Cause)
    (expected : KindSet) : Ends (reportHere strategy cause expected s) :=
  report_ends h ..

/-- Reporting an error leaves no rule; it may end the parse. -/
theorem report_error {id : NodeId} {e : SyntaxError} {a : Abort}
    (h : report strategy id e s = .error a s') : a = .halt := by
  rw [report] at h
  split at h
  · cases h
  · cases strategy <;> cases h
    rfl

theorem fail_ends (h : s.Going) (strategy : Strategy) (cause : SyntaxError.Cause)
    (expected : KindSet) : Ends (fail strategy cause expected s) := by
  have hreport := reportHere_ends h strategy cause expected
  show Ends (EStateM.bind (reportHere strategy cause expected) _ s)
  rw [EStateM.bind]
  cases hr : reportHere strategy cause expected s with
  | ok _ t =>
    rw [hr] at hreport
    exact ⟨hreport, (reportHere_ok hr).2.2⟩
  | error a t => rwa [hr] at hreport

/-- Dropping tokens gives no reason for the parse to be over. -/
theorem discardUntil_keeps (id : NodeId) (stop : KindSet) (n : Nat) (s : State) :
    (s.discardUntil id stop n).failure = s.failure ∧
      (s.discardUntil id stop n).recovering = s.recovering ∧
      (s.discardUntil id stop n).lastError = s.lastError := by
  obtain ⟨_, _, hdrop⟩ := discardUntil_eq id stop n s
  rw [hdrop]
  exact ⟨rfl, rfl, rfl⟩

theorem recover_ends (h : s.Going) (hr : s.recovering = true) :
    Ends (recover s) ∧ ∀ s', recover s ≠ .error .resync s' := by
  have herror := h.lastError hr
  obtain ⟨hf, -, he⟩ :=
    discardUntil_keeps s.node s.resyncSet s.stream.remaining { s with recovering := true }
  have hgoing : (State.discardUntil s.node s.resyncSet s.stream.remaining
      { s with recovering := true }).Going :=
    ⟨hf.trans h.failure_eq, fun _ => (congrArg Option.isSome he).trans herror⟩
  rw [recover]
  split
  · split
    · exact ⟨isSome_terminate _ _, fun _ hs => by cases hs⟩
    · rename_i hnone
      rw [he] at hnone
      rw [hnone] at herror
      cases herror
  · exact ⟨hgoing, fun _ hs => by cases hs⟩

theorem expectOneOf_ends (h : s.Going) (strategy : Strategy) (set : KindSet) :
    Ends (expectOneOf strategy set s) := by
  rw [expectOneOf_eq]
  split
  · exact h.consume
  · split
    · have hreport := reportHere_ends h strategy .extraneous set
      cases hr : reportHere strategy .extraneous set s with
      | ok _ t =>
        rw [hr] at hreport
        have hdiscard : (t.discard t.node).Going := ⟨hreport.failure_eq, hreport.lastError⟩
        exact hdiscard.consume
      | error a t => rwa [hr] at hreport
    · exact fail_ends h strategy .mismatched set

theorem Move.run_ends (h : s.Going) (strategy : Strategy) (m : Move) :
    Ends (m.run strategy s) := by
  cases m with
  | relabel label => exact ⟨h.failure_eq, h.lastError⟩
  | wrap label => exact h.wrap label
  | take set => exact expectOneOf_ends h strategy set
  | check floor highest =>
    rw [run, checkFloor]
    split
    · exact h
    · exact reportHere_ends h ..
  | fail expected => exact fail_ends h ..
  | sync =>
    have hfail := fail_ends h strategy .noViable Rule.query.follow
    rw [run, syncStage, recovering]
    split
    · rename_i t ht
      rw [ht] at hfail
      exact (recover_ends hfail.1 hfail.2).1
    · exact hfail

theorem failTooDeep_ends (limit : Nat) (s : State) : Ends (failTooDeep limit s) :=
  isSome_terminate _ _

/-- No rule is left with an error by the rule that met it. -/
theorem closing_ends (h : Ends res) :
    Ends (closing res) ∧ ∀ s', closing res ≠ .error .resync s' := by
  cases res with
  | ok _ s => exact ⟨State.Going.leave h, fun _ hs => by cases hs⟩
  | error a s =>
    cases a with
    | halt =>
      refine ⟨?_, fun _ hs => by cases hs⟩
      show s.leave.failure.isSome = true
      rw [failure_leave]
      exact h
    | resync =>
      obtain ⟨hends, hne⟩ := recover_ends h.1 h.2
      rw [closing]
      cases hr : recover s with
      | ok _ t =>
        rw [hr] at hends
        exact ⟨State.Going.leave hends, fun _ hs => by cases hs⟩
      | error a t =>
        rw [hr] at hends hne
        cases a with
        | resync => exact absurd rfl (hne t)
        | halt =>
          refine ⟨?_, fun _ hs => by cases hs⟩
          show t.leave.failure.isSome = true
          rw [failure_leave]
          exact hends

/-- **A script halts only for a reason.** -/
theorem Executes.ends (h : Executes strategy limit d p s res) (hs : s.Going) : Ends res := by
  induction h with
  | done => exact hs
  | @step _ m _ s s' _ _ h _ ih =>
    have hstep := m.run_ends hs strategy
    rw [h] at hstep
    exact ih hstep
  | @stop _ m _ s s' _ _ h =>
    have hstep := m.run_ends hs strategy
    rwa [h] at hstep
  | call _ _ hc _ ihb ihp =>
    have hcall := (closing_ends (ihb ⟨hs.failure_eq, hs.lastError⟩)).1
    rw [hc] at hcall
    exact ihp hcall
  | callStop _ _ hc ihb =>
    have hcall := (closing_ends (ihb ⟨hs.failure_eq, hs.lastError⟩)).1
    rwa [hc] at hcall
  | deep => exact (closing_ends (failTooDeep_ends limit _)).1
  | go _ ih => exact ih hs
  | idle => exact hs

theorem Calls.ends (h : Calls strategy limit d r f s res) (hs : s.Going) :
    Ends res ∧ ∀ s', res ≠ .error .resync s' := by
  cases d with
  | zero =>
    cases h
    exact closing_ends (failTooDeep_ends limit _)
  | succ d =>
    obtain ⟨res', hb, rfl⟩ := h
    exact closing_ends (hb.ends ⟨hs.failure_eq, hs.lastError⟩)

end PipeQuery.Parser

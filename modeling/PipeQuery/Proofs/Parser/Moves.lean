import PipeQuery.Proofs.Parser.Evolution

/-!
# The steps of a parse

Reporting an error, recovering from it, matching a token: each is made of a few small changes of the
state, and keeps the errors that the tree has.

## Main definitions

* `Move.run`: what a step of a script does to the state of a parse
* `Move.Plain`: a step that does not match the end of the input

## Main results

* `Move.run_evolves`, `recover_evolves`: what the steps of a parse are made of
* `expectOneOf_keepsErrors`: matching a token keeps errors
-/

namespace PipeQuery.Parser

open Token (Kind KindSet)

variable {s s' : State} {x x' : Site} {p : Path}

theorem Evolves.trans_edit {s'' : State} (h : Evolves s s') (h' : Edit s' s'') :
    Evolves s s'' :=
  h.trans (.edit h')

/-! ## Runs, one after the other -/

theorem bind_ok {a : Run Unit} {b : Unit → Run Unit} (h : a s = .ok () s') :
    (a >>= b) s = b () s' := by
  show EStateM.bind a b s = _
  rw [EStateM.bind, h]

theorem bind_error {a : Run Unit} {b : Unit → Run Unit} {abort : Abort}
    (h : a s = .error abort s') : (a >>= b) s = .error abort s' := by
  show EStateM.bind a b s = _
  rw [EStateM.bind, h]

/-! ## Errors -/

/-- Reporting an error is nothing but that: the tokens and the open rules stay. -/
theorem report_ok {strategy : Strategy} {id : NodeId} {e : SyntaxError}
    (h : report strategy id e s = .ok () s') :
    s'.stream = s.stream ∧ s'.frames = s.frames ∧ s'.recovering = true := by
  rw [report] at h
  split at h
  · rename_i hr
    cases h
    exact ⟨rfl, rfl, hr⟩
  · cases strategy <;> cases h
    exact ⟨rfl, rfl, rfl⟩

theorem reportHere_ok {strategy : Strategy} {cause : SyntaxError.Cause} {expected : KindSet}
    (h : reportHere strategy cause expected s = .ok () s') :
    s'.stream = s.stream ∧ s'.frames = s.frames ∧ s'.recovering = true :=
  report_ok h

theorem reportHere_tracks {strategy : Strategy} {cause : SyntaxError.Cause} {expected : KindSet}
    (h : reportHere strategy cause expected s = .ok () s') (ht : Tracks s (x :: p)) :
    ∃ e, Tracks s' ({ x with error := e } :: p) := by
  have hreport := ht.report strategy cause expected
  rwa [h] at hreport

/-! ## Recovery -/

theorem discardUntil_evolves (stop : KindSet) (n : Nat) (hr : s.recovering = true) :
    Evolves s (s.discardUntil s.node stop n) := by
  refine (discardUntil_induction n
    (P := fun t => Evolves s t ∧ t.node = s.node ∧ t.recovering = true) ⟨.refl s, rfl, hr⟩ ?_).1
  rintro t ⟨ht, hnode, hr⟩ hk -
  have hdiscard := Edit.discard hk hr
  rw [hnode] at hdiscard
  exact ⟨ht.trans_edit hdiscard, hnode, hr⟩

theorem discardUntil_keepsErrors (id : NodeId) (stop : KindSet) (n : Nat) (s : State) :
    KeepsErrors s.arena (s.discardUntil id stop n).arena :=
  discardUntil_induction (P := fun t => KeepsErrors s.arena t.arena) n (.refl _)
    fun _ ht _ _ => ht.trans (keepsErrors_push ..)

theorem recover_evolves (s : State) : Evolves s (Result.state (recover s)) := by
  have hdrop := (Evolves.edit (.search s)).trans
    (discardUntil_evolves (s := { s with recovering := true }) s.resyncSet s.stream.remaining rfl)
  rw [recover]
  split
  · split
    · exact hdrop.trans_edit (.giveUp ‹_›)
    · exact hdrop
  · exact hdrop

/-- Where a place to go on is found, tokens were dropped up to it. -/
theorem recover_ok_eq (h : recover s = .ok () s') :
    s' = { s with recovering := true }.discardUntil s.node s.resyncSet s.stream.remaining := by
  rw [recover] at h
  split at h
  · split at h <;> cases h
  · cases h
    rfl

/-- Looking for a place to go on after a step. -/
theorem recovering_evolves {step : Run Unit} (h : Evolves s (Result.state (step s))) :
    Evolves s (Result.state (recovering step s)) := by
  rw [recovering]
  split
  · rename_i hstep
    rw [hstep] at h
    exact h.trans (recover_evolves _)
  · exact h

theorem fail_evolves (strategy : Strategy) (cause : SyntaxError.Cause) (expected : KindSet)
    (s : State) : Evolves s (Result.state (fail strategy cause expected s)) := by
  have hreport := Evolves.edit (.report s strategy cause expected)
  have hfail : Result.state (fail strategy cause expected s) =
      Result.state (reportHere strategy cause expected s) := by
    show Result.state (EStateM.bind _ _ s) = _
    rw [EStateM.bind]
    cases reportHere strategy cause expected s <;> rfl
  rwa [hfail]

/-! ## Tokens -/

theorem expectOneOf_eq (strategy : Strategy) (set : KindSet) (s : State) :
    expectOneOf strategy set s =
      if set.contains (s.kindAt 1) then .ok () s.consume
      else if s.kindAt 1 ≠ .endOfInput && set.contains (s.kindAt 2) then
        match reportHere strategy .extraneous set s with
        | .ok () t => .ok () (t.discard t.node).consume
        | .error a t => .error a t
      else fail strategy .mismatched set s := by
  by_cases hk : set.contains (s.kindAt 1) = true
  · rw [if_pos hk]
    show (if set.contains (s.kindAt 1) = true then consume else _ : Run Unit) s = _
    rw [if_pos hk]
    rfl
  · rw [if_neg hk]
    show (if set.contains (s.kindAt 1) = true then consume else _ : Run Unit) s = _
    rw [if_neg hk]
    show (if (decide (s.kindAt 1 ≠ .endOfInput) && set.contains (s.kindAt 2)) = true then
      (do reportHere strategy .extraneous set; modify fun s => s.discard s.node; consume : Run Unit)
      else fail strategy .mismatched set) s = _
    split
    · show EStateM.bind (reportHere strategy .extraneous set) _ s = _
      rw [EStateM.bind]
      cases reportHere strategy .extraneous set s <;> rfl
    · rfl

theorem kindAt_discard (hs : s.stream.Proper) (hk : s.kindAt 1 ≠ .endOfInput) (id : NodeId)
    (k : Nat) : (s.discard id).kindAt (k + 1) = s.kindAt (k + 2) := by
  have hne : s.stream.coming ≠ [] := fun hnil => hk (by
    rw [State.kindAt, hs.kindAt_one, hnil, next_nil])
  obtain ⟨k', w, hw⟩ := List.exists_cons_of_ne_nil hne
  obtain ⟨hs', hw', -⟩ := hs.consume hw
  show s.stream.consume.kindAt (k + 1) = s.stream.kindAt (k + 1 + 1)
  rw [hs'.kindAt_eq, hs.kindAt_eq, hw', hw, List.drop_succ_cons]

/-- A stray token is dropped, and the token behind it is matched. -/
theorem discard_consume_evolves {set : KindSet} (hset : set.contains .endOfInput = false)
    (hs : s.stream.Proper) (hk : s.kindAt 1 ≠ .endOfInput) (hk' : set.contains (s.kindAt 2) = true)
    (hr : s.recovering = true) : Evolves s (s.discard s.node).consume := by
  have hsecond : (s.discard s.node).kindAt 1 ≠ .endOfInput := by
    rw [kindAt_discard hs hk]
    exact KindSet.ne_of_contains hset hk'
  exact (Evolves.edit (.discard hk hr)).trans_edit (.consume hsecond)

theorem keepsErrors_discard_consume (s : State) :
    KeepsErrors s.arena (s.discard s.node).consume.arena :=
  (keepsErrors_push s.arena _ _).trans (keepsErrors_push ..)

/-- Matching a token, even the end of the input, keeps the errors. -/
theorem expectOneOf_keepsErrors (strategy : Strategy) (set : KindSet) (s : State) :
    KeepsErrors s.arena (Result.state (expectOneOf strategy set s)).arena := by
  rw [expectOneOf_eq]
  split
  · exact keepsErrors_push ..
  · split
    · have hreport := (Edit.report s strategy .extraneous set).keepsErrors
      cases hr : reportHere strategy .extraneous set s with
      | error a t => rwa [hr] at hreport
      | ok _ t =>
        rw [hr] at hreport
        exact hreport.trans (keepsErrors_discard_consume t)
    · exact (fail_evolves ..).keepsErrors

/-- Matching a token that is not the end of the input. -/
theorem expectOneOf_evolves (strategy : Strategy) {set : KindSet}
    (hset : set.contains .endOfInput = false) (hs : s.stream.Proper) :
    Evolves s (Result.state (expectOneOf strategy set s)) := by
  rw [expectOneOf_eq]
  split
  · rename_i hk
    exact .edit (.consume (KindSet.ne_of_contains hset hk))
  · split
    · rename_i hk
      simp only [ne_eq, Bool.and_eq_true, decide_eq_true_eq] at hk
      have hreport := Evolves.edit (.report s strategy .extraneous set)
      cases hr : reportHere strategy .extraneous set s with
      | error a t =>
        rw [hr] at hreport
        exact hreport
      | ok _ t =>
        rw [hr] at hreport
        obtain ⟨hstream, -, hrec⟩ := reportHere_ok hr
        have hkind := kindAt_eq_of_stream hstream
        have hfirst : t.kindAt 1 ≠ .endOfInput := by rw [hkind]; exact hk.1
        have hsecond : set.contains (t.kindAt 2) = true := by rw [hkind]; exact hk.2
        exact hreport.trans (discard_consume_evolves hset (hstream ▸ hs) hfirst hsecond hrec)
    · exact fail_evolves strategy .mismatched set s

/-! ## Steps -/

/-- **The steps of a parse**, carried out on its state. -/
def Move.run (strategy : Strategy) : Move → Run Unit
  | .relabel label => Parser.relabel label
  | .wrap label => Parser.wrap label
  | .take set => expectOneOf strategy set
  | .check floor highest => checkFloor strategy floor highest
  | .fail expected => Parser.fail strategy .noViable expected
  | .sync => syncStage strategy

/-- A step that does not match the end of the input. -/
def Move.Plain : Move → Prop
  | .take set => set.contains .endOfInput = false
  | _ => True

instance : DecidablePred Move.Plain
  | .take set => inferInstanceAs (Decidable (set.contains .endOfInput = false))
  | .relabel _ | .wrap _ | .check _ _ | .fail _ | .sync => .isTrue trivial

theorem Move.run_evolves {m : Move} (hm : m.Plain) (strategy : Strategy) (hs : s.stream.Proper) :
    Evolves s (Result.state (m.run strategy s)) := by
  cases m with
  | relabel label => exact .edit (.relabel s label)
  | wrap label => exact .edit (.wrap s label)
  | take set => exact expectOneOf_evolves strategy hm hs
  | check floor highest =>
    rw [run, checkFloor]
    split
    · exact .refl s
    · exact .edit (.report s strategy (.floorTooHigh floor highest) ∅)
  | fail expected => exact fail_evolves ..
  | sync => exact recovering_evolves (fail_evolves ..)

end PipeQuery.Parser

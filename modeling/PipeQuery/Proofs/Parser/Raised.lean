import PipeQuery.Proofs.Parser.Located

/-!
# The errors that a parse raises

A parse keeps a record of the errors that it raises. An error is lost if its node has one already,
since a node takes only one. This happens in two places, each of them at the end of a parse: a
bracket may be missing at the end of the input, behind a stray token before it; and something may
stand behind an expression whose floor is too high. All other errors are in the tree, in the order
in which they were raised.

## Main definitions

* `Entry.raised`: the errors that a parse raises
* `Trailing`: the error of what stands behind an expression
* `Misses`: a state that has lost the last error raised
* `Recorded`: a state in the middle of a parse, by the errors that it has

## Main results

* `recorded_live`: what the acts of a parse keep of this
* `raised_eq_diagnostics`: the errors raised are those of the tree, but for the last
-/

namespace PipeQuery

/-- The errors that a parse raises, in the order in which it meets them. What it meets while it
recovers from an earlier error is not raised. -/
def Entry.raised (entry : Entry) (options : Options) (tokens : List Token) : List SyntaxError :=
  (Parser.endState (entry.run options) (.start (.ofList tokens))).raised.reverse

namespace Parser

open Token (Kind KindSet)

variable {strategy : Strategy} {keeps : Prop} {b : Slate} {s s' v : State} {y : Site} {id : NodeId}
  {n : Node} {e : SyntaxError} {options : Options} {tokens : List Token} {t : ParseTree}

/-- The error of what stands behind an expression. -/
structure Trailing (e : SyntaxError) : Prop where
  cause_eq : e.cause = .mismatched
  rule_eq : e.rule = .booleanExpression
  expected_eq : e.expected = .ofList [.endOfInput]
  kind_ne : e.token.kind ≠ .endOfInput

/-- The errors raised are those of the arena, all before `e`, and then `e`, for which there was no
room: the node `id` had an error of the same rule. -/
structure Misses (s : State) (id : NodeId) (e : SyntaxError) : Prop where
  raised_eq : s.raised.reverse = s.arena.errors ++ [e]
  before : ∀ e' ∈ s.arena.errors, e'.index < e.index
  taken : ∃ e', s.arena.errorAt id = some e' ∧ e'.rule = e.rule

theorem Misses.congr (h : Misses s id e) (hraised : s'.raised = s.raised)
    (herrors : s.arena.SameErrors s'.arena) : Misses s' id e := by
  constructor
  case raised_eq => rw [hraised, herrors.errors_eq, h.raised_eq]
  case before => exact herrors.errors_eq ▸ h.before
  case taken =>
    rw [herrors.errorAt_eq]
    exact h.taken

/-! ## In the middle of a parse -/

/-- A state in the middle of a parse: all errors raised are in the arena, or a bracket was missing
at the end of the input. -/
inductive Recorded (s : State) : Prop where
  | all (h : s.raised.reverse = s.arena.errors)
  | unclosed {id : NodeId} {e : SyntaxError} (h : Misses s id e) (he : Unclosed e)
    (hr : s.recovering = true) (hk : s.kindAt 1 = .endOfInput)

theorem Recorded.quiet (h : Recorded s) (hq : Quiet s s') : Recorded s' := by
  cases h with
  | all h => exact .all (by rw [hq.raised_eq, hq.errors.errors_eq, h])
  | unclosed h he hr hk =>
    exact .unclosed (h.congr hq.raised_eq hq.errors) he (hq.recovering_eq.trans hr)
      ((hq.kindAt_eq 1).trans hk)

/-- Before a token no error was lost. -/
theorem Recorded.raised_eq (h : Recorded s) (hgo : s.kindAt 1 ≠ .endOfInput) :
    s.raised.reverse = s.arena.errors := by
  cases h with
  | all h => exact h
  | unclosed _ _ _ hk => exact absurd hk hgo

/-- A parse that does not recover has lost no error. -/
theorem Recorded.raised_eq_of_going (h : Recorded s) (hgo : s.recovering = false) :
    s.raised.reverse = s.arena.errors := by
  cases h with
  | all h => exact h
  | unclosed _ _ hr => exact absurd (hgo.symm.trans hr) Bool.false_ne_true

/-- **An error that is raised** is attached to its node, unless the node has one of the same rule
already. -/
theorem raise_recorded (hs : Ordered s ∧ s.arena.EachError (Located s)) (hrec : Recorded s)
    (hr : s.recovering = false) (hn : Hosts s id n e.rule) (he : e.index = s.cursor) :
    (s.raise id e).raised.reverse = (s.raise id e).arena.errors ∨
      n.error ≠ none ∧ Misses (s.raise id e) id e := by
  obtain ⟨hordered, hlocated⟩ := hs
  have hraised : (s.raise id e).raised.reverse = s.arena.errors ++ [e] := by
    rw [State.raise, List.reverse_cons, hrec.raised_eq_of_going hr]
  have herror : s.arena.errorAt id = n.error := by
    rw [Arena.errorAt, hn.node_eq]
    rfl
  cases hne : n.error with
  | none =>
    have hid : id < s.arena.size := (Array.getElem?_eq_some_iff.mp hn.node_eq).1
    left
    rw [hraised]
    exact (Arena.errors_attach_of_none hordered.reports hid (herror.trans hne) e).symm
  | some e' =>
    have hsame : (s.raise id e).arena = s.arena := Arena.attach_of_errorAt_some (herror.trans hne) e
    refine .inr ⟨Option.some_ne_none e', ?_⟩
    constructor
    case raised_eq => rw [hraised, hsame]
    case before =>
      rw [hsame, he]
      exact hordered.before hr
    case taken =>
      rw [hsame, herror]
      exact ⟨e', hne, (hlocated id n e' hn.node_eq hne).rule_eq.symm.trans hn.rule_eq⟩

/-- **All errors raised are in the arena**, unless a bracket was missing at the end of the input. -/
theorem recorded_live (hkeeps : keeps) : Live keeps fun s =>
    (Ordered s ∧ s.arena.EachError (Located s)) ∧ Recorded s := by
  refine ((ordered_live keeps).and (located_live keeps)).along ?_ ?_ ?_ ?_
  · exact fun hq h => h.quiet hq
  · -- A token is matched, so the end of the input is not reached.
    intro s h _ hk
    have herrors := s.arena.sameErrors_push s.node (.token s.cursor)
    exact .all ((h.raised_eq hk).trans herrors.errors_eq.symm)
  · intro s id n e hs h _ hr hn he hc
    rcases raise_recorded hs h hr hn he.index_eq with hall | ⟨hne, hmisses⟩
    · exact .all hall
    · -- No room is left only where a bracket is missing.
      have hunclosed := (hc hkeeps).resolve_right hne
      exact .unclosed (hmisses.congr rfl (.refl _)) hunclosed rfl (he.kindAt_eq hunclosed)
  · intro s h _ _ hk id _
    have herrors := s.arena.sameErrors_push id (.discarded s.cursor)
    exact .all ((h.raised_eq hk).trans herrors.errors_eq.symm)

theorem recorded_start (stream : TokenStream) :
    (Ordered (.start stream) ∧ (State.start stream).arena.EachError (Located (.start stream))) ∧
      Recorded (.start stream) :=
  ⟨⟨ordered_start stream, Arena.eachError_empty⟩, .all rfl⟩

/-! ## At the end of a parse -/

/-- A state at the end of a parse, by the errors that it has. -/
inductive Settled (entry : Entry) (s : State) : Prop where
  | all (h : s.raised.reverse = s.arena.errors)
  | unclosed {id : NodeId} {e : SyntaxError} (h : Misses s id e) (he : Unclosed e)
  | trailing {floor : Nat} {id : NodeId} {e : SyntaxError} (h : Misses s id e) (he : Trailing e)
    (hentry : entry = .expression floor) (hfloor : Precedence.booleanMax < floor)
    (hroot : s.arena.root = some id)

theorem Recorded.settled (h : Recorded s) (entry : Entry) : Settled entry s := by
  cases h with
  | all h => exact .all h
  | unclosed h he => exact .unclosed h he

/-- No error is raised where tokens are dropped into the root. -/
theorem dropRest_errors (s : State) (id : NodeId) :
    (s.dropRest id).raised = s.raised ∧ s.arena.SameErrors (s.dropRest id).arena ∧
      (s.dropRest id).arena.root = s.arena.root := by
  have hdiscard (n : Nat) : ∀ s : State, (s.discardUntil id ∅ n).raised = s.raised ∧
      s.arena.SameErrors (s.discardUntil id ∅ n).arena ∧
      (s.discardUntil id ∅ n).arena.root = s.arena.root := by
    induction n with
    | zero => exact fun s => ⟨rfl, .refl _, rfl⟩
    | succ n ih =>
      intro s
      rw [State.discardUntil]
      split
      · exact ⟨rfl, .refl _, rfl⟩
      · obtain ⟨hraised, herrors, hroot⟩ := ih (s.discard id)
        exact ⟨hraised, (s.arena.sameErrors_push id _).trans herrors, hroot⟩
  obtain ⟨hraised, herrors, hroot⟩ := hdiscard s.stream.remaining s
  exact ⟨hraised, herrors.trans (Arena.sameErrors_close ..), hroot⟩

theorem Settled.dropRest {entry : Entry} (h : Settled entry s) (id : NodeId) :
    Settled entry (s.dropRest id) := by
  obtain ⟨hraised, herrors, hroot⟩ := dropRest_errors s id
  cases h with
  | all h => exact .all (by rw [hraised, herrors.errors_eq, h])
  | unclosed h he => exact .unclosed (h.congr hraised herrors) he
  | trailing h he hentry hfloor hs =>
    exact .trailing (h.congr hraised herrors) he hentry hfloor (hroot.trans hs)

/-- What stands behind an expression is told of at the root, unless the floor was. -/
theorem raise_trailing {floor : Nat} (hstands : Stands .booleanExpression b v y [])
    (hb : floor ≤ Precedence.booleanMax → b ≠ .marked)
    (hs : Ordered v.leave ∧ v.leave.arena.EachError (Located v.leave)) (hrec : Recorded v.leave)
    (hr : v.leave.recovering = false) (hk : v.leave.kindAt 1 ≠ .endOfInput) :
    Settled (.expression floor) (v.leave.raise y.id v.leave.trailingError) := by
  rcases raise_recorded hs hrec hr hstands.hosts_leave (e := v.leave.trailingError) rfl with
    hall | ⟨hne, hmisses⟩
  · exact .all hall
  · have hroot : (v.leave.arena.attach y.id v.leave.trailingError).root = some y.id := by
      rw [Arena.root_attach, hstands.root_leave]
    refine .trailing hmisses ⟨rfl, rfl, rfl, hk⟩ rfl (Nat.lt_of_not_le fun hle => hne ?_) hroot
    -- Below the highest floor the root has no error, or the parse still recovers from that.
    have hholds := hstands.holds
    rw [recovering_leave] at hr
    cases b with
    | clean => exact hholds
    | fresh => exact hholds.resolve_right (Bool.eq_false_iff.mp hr)
    | marked => exact absurd rfl (hb hle)

/-- **What becomes of the errors behind an expression.** -/
theorem trailing_settled {floor : Nat} (hstands : Stands .booleanExpression b v y [])
    (hb : floor ≤ Precedence.booleanMax → b ≠ .marked)
    (hs : Ordered v.leave ∧ v.leave.arena.EachError (Located v.leave)) (hrec : Recorded v.leave)
    (hf : (Result.state (trailing strategy v.leave)).failure = none) :
    Settled (.expression floor) (Result.state (trailing strategy v.leave)) := by
  rw [trailing, hstands.root_leave, Option.getD_some] at hf ⊢
  by_cases hk : v.leave.kindAt 1 = .endOfInput
  · rw [if_neg (not_not_intro hk)]
    exact hrec.settled _
  rw [if_pos hk] at hf ⊢
  -- While the parse recovers the error is not told of, and otherwise it is raised at the root.
  cases hr : v.leave.recovering with
  | true =>
    have hreport : report strategy y.id v.leave.trailingError v.leave = .ok () v.leave := by
      rw [report, if_pos hr]
    rw [hreport]
    exact (hrec.settled _).dropRest y.id
  | false =>
    have hraise := raise_trailing hstands hb hs hrec hr hk
    have hgo : ¬ v.leave.recovering = true := Bool.eq_false_iff.mp hr
    cases strategy with
    | bail =>
      have hreport : report .bail y.id v.leave.trailingError v.leave =
          .error .halt ((v.leave.raise y.id v.leave.trailingError).terminate
            (.bailed v.leave.trailingError)) := by
        rw [report, if_neg hgo]
      rw [hreport] at hf
      exact absurd hf (failure_terminate_ne _ _)
    | recover =>
      have hreport : report .recover y.id v.leave.trailingError v.leave =
          .ok () { v.leave.raise y.id v.leave.trailingError with
            lastError := some v.leave.trailingError } := by
        rw [report, if_neg hgo]
      rw [hreport]
      refine Settled.dropRest ?_ y.id
      cases hraise with
      | all h => exact .all h
      | unclosed h he => exact .unclosed (h.congr rfl (.refl _)) he
      | trailing h he hentry hfloor hroot =>
        exact .trailing (h.congr rfl (.refl _)) he hentry hfloor hroot

theorem statement_settled (options : Options) (tokens : List Token)
    (hf : (Result.state (Entry.statement.run options (.start (.ofList tokens)))).failure = none) :
    Settled .statement (Result.state (Entry.statement.run options (.start (.ofList tokens)))) := by
  have hlive : Live True _ := recorded_live trivial
  rcases hlive.arrives (statement_arrives options True tokens) hf (recorded_start _) with
    ⟨-, hrec⟩ | ⟨u, heq, ⟨-, hrec⟩, -, -⟩
  · exact hrec.settled _
  · -- The end of the input is matched at last.
    have herrors := (u.arena.sameErrors_push u.node (.token u.cursor)).trans
      (sameErrors_leave u.consume)
    have hraised : u.consume.leave.raised = u.raised := (quiet_leave u.consume).raised_eq
    rw [heq]
    cases hrec with
    | all h => exact .all (by rw [hraised, herrors.errors_eq, h])
    | unclosed h he => exact .unclosed (h.congr hraised herrors) he

theorem expression_settled (options : Options) (floor : Nat) (tokens : List Token)
    (hf : (Result.state ((Entry.expression floor).run options
      (.start (.ofList tokens)))).failure = none) :
    Settled (.expression floor)
      (Result.state ((Entry.expression floor).run options (.start (.ofList tokens)))) := by
  change (Result.state (standalone options floor _)).failure = none at hf
  show Settled _ (Result.state (standalone options floor _))
  rw [standalone_eq] at hf ⊢
  obtain ⟨v, hv, hacts, hok⟩ := expression_acts options True floor tokens
  have hlive : Live True _ := recorded_live trivial
  have hrec (hf : v.leave.failure = none) :
      (Ordered v.leave ∧ v.leave.arena.EachError (Located v.leave)) ∧ Recorded v.leave :=
    hlive.kept.acts (.nest hacts) (TokenStream.proper_ofList tokens)
      (fun _ => recorded_start _) hf
  cases hc : parseRule options options.maxDepth .booleanExpression floor
      (.start (.ofList tokens)) with
  | error a t =>
    rw [hc] at hv hf
    obtain rfl : t = v.leave := hv
    exact (hrec hf).2.settled _
  | ok _ t =>
    rw [hc] at hv hf
    obtain rfl : t = v.leave := hv
    obtain ⟨b, y, hy, hb⟩ := hok _ hc
    have hcall := standalone_calls options floor tokens
    have hends := (hcall.ends ⟨rfl, fun h => by cases h⟩).1
    rw [hc] at hends
    obtain ⟨hs, hr⟩ := hrec hends.failure_eq
    exact trailing_settled hy hb hs hr hf

/-! ## The errors of a tree -/

/-- **No error that is raised is lost, but for the last.** The errors that a parse raises are those
of its tree, in this order; or one more is raised, behind all of these, at a node that has an error
of the same rule already. That one tells that a bracket is missing at the end of the input, or that
something stands behind an expression whose floor is too high. -/
theorem raised_eq_diagnostics (entry : Entry) (h : entry.parse options tokens = .ok t) :
    entry.raised options tokens = t.diagnostics ∨
    ∃ id e, entry.raised options tokens = t.diagnostics ++ [e] ∧
      (∀ e' ∈ t.diagnostics, e'.index < e.index) ∧
      (∃ e', (t.node id).error = some e' ∧ e'.rule = e.rule) ∧
      (Unclosed e ∨
        Trailing e ∧ id = t.root ∧
          ∃ floor, entry = .expression floor ∧ Precedence.booleanMax < floor) := by
  obtain ⟨hf, hs⟩ := parse_yields h
  obtain ⟨s', hs', hsorted⟩ := parse_sorted h
  rw [← hs'.errors_eq, hs.errors_eq] at hsorted
  have hdiagnostics := hs.diagnostics_eq hsorted
  have hsettled : Settled entry (Result.state (entry.run options (.start (.ofList tokens)))) := by
    cases entry with
    | statement => exact statement_settled options tokens hf
    | expression floor => exact expression_settled options floor tokens hf
  rw [Entry.raised, endState_eq, hdiagnostics]
  cases hsettled with
  | all h => exact .inl h
  | @unclosed id e h he =>
    refine .inr ⟨id, e, h.raised_eq, h.before, ?_, .inl he⟩
    rw [hs.error_eq]
    exact h.taken
  | @trailing floor id e h he hentry hfloor hroot =>
    have hid : id = t.root := Option.some.inj (hroot.symm.trans hs.root_eq)
    refine .inr ⟨id, e, h.raised_eq, h.before, ?_, .inr ⟨he, hid, floor, hentry, hfloor⟩⟩
    rw [hs.error_eq]
    exact h.taken

/-- In `a , b` over a floor that is too high, the error behind `a` is lost. -/
theorem raised_eq_diagnostics_floor :
    ∃ t, Entry.parse ⟨20, .recover⟩ ([Kind.name, .comma, .name].map Token.ofKind)
      (.expression 5) = .ok t ∧
      ∃ e, Entry.raised (.expression 5) ⟨20, .recover⟩
        ([Kind.name, .comma, .name].map Token.ofKind) = t.diagnostics ++ [e] ∧
        (∃ e', (t.node t.root).error = some e' ∧ e'.rule = e.rule) ∧ Trailing e := by
  obtain ⟨t, h, hlen, hraised⟩ : ∃ t, Entry.parse ⟨20, .recover⟩
      ([Kind.name, .comma, .name].map Token.ofKind) (.expression 5) = .ok t ∧
      (t.reported.toList.filterMap fun id => (t.node id).error).length = 1 ∧
      (Entry.raised (.expression 5) ⟨20, .recover⟩
        ([Kind.name, .comma, .name].map Token.ofKind)).map (fun e => e.token.kind) =
          [.name, .comma] := by
    decide +kernel
  refine ⟨t, h, ?_⟩
  have hone : t.diagnostics.length = 1 := by rw [ParseTree.diagnostics, List.length_mergeSort, hlen]
  rcases raised_eq_diagnostics (.expression 5) h with heq | ⟨id, e, heq, -, htaken, hcase⟩
  · -- There are two errors, and the tree has only one node to take them.
    have htwo := congrArg List.length hraised
    rw [heq, List.length_map, hone] at htwo
    cases htwo
  · refine ⟨e, heq, ?_⟩
    rcases hcase with hunclosed | ⟨htrailing, rfl, -⟩
    · -- The last error is at the comma, not at the end of the input.
      have hkind := congrArg List.getLast? hraised
      rw [heq, List.map_append, List.map_singleton, List.getLast?_concat,
        hunclosed.kind_eq] at hkind
      cases hkind
    · exact ⟨htaken, htrailing⟩

/-- In `explain x [ from s` two errors are raised, at the stray name and at the end of the input,
and the second is lost. -/
theorem raised_ne_diagnostics :
    ∃ t, Entry.parse ⟨20, .recover⟩ ([Kind.explainCmd, .name, .leftBracket, .fromCmd,
      .sourceName].map Token.ofKind) .statement = .ok t ∧
      t.diagnostics.map SyntaxError.index = [1] ∧
      (Entry.raised .statement ⟨20, .recover⟩ ([Kind.explainCmd, .name, .leftBracket, .fromCmd,
        .sourceName].map Token.ofKind)).map SyntaxError.index = [1, 5] := by
  obtain ⟨t, h, hindex, hraised⟩ : ∃ t, Entry.parse ⟨20, .recover⟩ ([Kind.explainCmd, .name,
      .leftBracket, .fromCmd, .sourceName].map Token.ofKind) .statement = .ok t ∧
      (t.reported.toList.filterMap fun id => (t.node id).error).map SyntaxError.index = [1] ∧
      (Entry.raised .statement ⟨20, .recover⟩ ([Kind.explainCmd, .name, .leftBracket, .fromCmd,
        .sourceName].map Token.ofKind)).map SyntaxError.index = [1, 5] := by
    decide +kernel
  obtain ⟨e, he, heq⟩ := List.map_eq_singleton_iff.mp hindex
  refine ⟨t, h, ?_, hraised⟩
  rw [ParseTree.diagnostics, he, List.mergeSort_singleton, List.map_singleton, heq]

end Parser

end PipeQuery

import PipeQuery.Parser.Source
import PipeQuery.Proofs.Parser.Verdict
import PipeQuery.Proofs.Tree.Errors

/-!
# Invariants of a parse

What holds of a state before a parse, and is kept by each of the small changes that a parse is made
of, holds of the state in which the parse ends, however it ends.

## Main definitions

* `Entry.run`: the parser of an entry
* `RunsTo`: how the parser of an entry comes to its end
* `Invariant`: what is kept by everything that a parse does to its state

## Main results

* `Invariant.evolves`, `Invariant.parse`: it is kept by parts of a parse, and holds at the end
* `reports_invariant`: the nodes noted are always those with an error
* `errorsBehind_invariant`: no error is ahead of the cursor
-/

namespace PipeQuery

/-- The parser of an entry. -/
def Entry.run (options : Options) : Entry → Parser.Run Unit
  | .statement => Parser.parseRule options options.maxDepth .singleStatement 0
  | .expression floor => Parser.standalone options floor

namespace Parser

open Token (Kind KindSet)

/-- What is kept by everything that a parse does to its state. -/
structure Invariant (P : State → Prop) : Prop where
  edit : ∀ {s s'}, Edit s s' → P s → P s'
  enter : ∀ {s} label floor, P s → P (s.enter label floor)
  leave : ∀ {s}, P s → P s.leave
  /-- Matching the end of the input, which is no small change. -/
  consume : ∀ {s}, P s → P s.consume
  /-- Dropping what stands behind an expression, when no rule is open any more. -/
  trailing : ∀ {s} strategy, P s → P (Result.state (Parser.trailing strategy s))

variable {P : State → Prop} {s s' : State} {options : Options} {tokens : List Token}
  {strategy : Strategy}

theorem parse_eq_finish (entry : Entry) (hne : (TokenStream.ofList tokens).isEmpty = false) :
    entry.parse options tokens =
      finish (Result.state (entry.run options (.start (.ofList tokens)))) := by
  cases entry <;> exact (run_eq ..).trans (if_neg (by rw [hne]; exact Bool.false_ne_true))

/-! ## The end of a run -/

/-- How the parser of an entry comes to its end. The rule that the entry calls is over, and what
stands behind it is looked at, or the rule has halted, and the parser with it. -/
inductive RunsTo (options : Options) (tokens : List Token) : Entry → Result → Prop
  | tooDeep (hd : options.maxDepth = 0) :
    RunsTo options tokens .statement (closing (failTooDeep options.maxDepth (opened tokens)))
  | query {d : Nat} {u : State} (hd : options.maxDepth = d + 1)
    (h : Calls options.strategy options.maxDepth d .query 0 (opened tokens) (.ok () u)) :
    RunsTo options tokens .statement
      (closing (expectOneOf options.strategy (.ofList [.endOfInput]) u))
  | queryStop {d : Nat} {a : Abort} {u : State} (hd : options.maxDepth = d + 1)
    (h : Calls options.strategy options.maxDepth d .query 0 (opened tokens) (.error a u)) :
    RunsTo options tokens .statement (closing (.error a u))
  | expression {floor : Nat} {u : State}
    (h : Calls options.strategy options.maxDepth options.maxDepth .booleanExpression floor
      (.start (.ofList tokens)) (.ok () u)) :
    RunsTo options tokens (.expression floor) (Parser.trailing options.strategy u)
  | expressionStop {floor : Nat} {a : Abort} {u : State}
    (h : Calls options.strategy options.maxDepth options.maxDepth .booleanExpression floor
      (.start (.ofList tokens)) (.error a u)) :
    RunsTo options tokens (.expression floor) (.error a u)

theorem run_runsTo (entry : Entry) (options : Options) (tokens : List Token) :
    RunsTo options tokens entry (entry.run options (.start (.ofList tokens))) := by
  cases entry with
  | statement =>
    show RunsTo _ _ _ (parseRule options options.maxDepth .singleStatement 0 _)
    cases hd : options.maxDepth with
    | zero =>
      rw [parseRule, within_eq, ← hd]
      exact .tooDeep hd
    | succ d =>
      rw [parseRule_statement]
      have hcall := query_calls options d tokens
      cases hq : parseRule options d .query 0 (opened tokens) with
      | ok _ u => exact .query hd (hq ▸ hcall)
      | error a u => exact .queryStop hd (hq ▸ hcall)
  | expression floor =>
    show RunsTo _ _ _ (standalone options floor _)
    rw [standalone_eq]
    have hcall := standalone_calls options floor tokens
    cases hq : parseRule options options.maxDepth .booleanExpression floor
        (.start (.ofList tokens)) with
    | ok _ u => exact .expression (hq ▸ hcall)
    | error a u => exact .expressionStop (hq ▸ hcall)

/-! ## Invariants at the end of a parse -/

/-- **An invariant is kept** by every part of a parse. -/
theorem Invariant.evolves (hP : Invariant P) (h : Evolves s s') (hs : P s) : P s' := by
  induction h with
  | refl => exact hs
  | edit h => exact hP.edit h hs
  | nest _ ih => exact hP.leave (ih (hP.enter _ _ hs))
  | trans _ _ ih ih' => exact ih' (ih hs)

theorem Invariant.expectOneOf (hP : Invariant P) (strategy : Strategy) (set : KindSet) (hs : P s) :
    P (Result.state (expectOneOf strategy set s)) := by
  rw [expectOneOf_eq]
  split
  · exact hP.consume hs
  · split
    · rename_i hk
      simp only [ne_eq, Bool.and_eq_true, decide_eq_true_eq] at hk
      have hreport : P (Result.state (reportHere strategy .extraneous set s)) :=
        hP.edit (.report s strategy .extraneous set) hs
      cases hr : reportHere strategy .extraneous set s with
      | error a t =>
        rw [hr] at hreport
        exact hreport
      | ok _ t =>
        rw [hr] at hreport
        obtain ⟨hstream, -, hrec⟩ := reportHere_ok hr
        -- The report leaves the tokens alone, so the stray one is still there to be dropped.
        have hkind : t.kindAt 1 ≠ .endOfInput := by
          rw [kindAt_eq_of_stream hstream]
          exact hk.1
        exact hP.consume (hP.edit (.discard hkind hrec) hreport)
    · exact hP.evolves (fail_evolves ..) hs

theorem Invariant.closing (hP : Invariant P) {res : Result} (h : P res.state) :
    P (Result.state (closing res)) := by
  obtain ⟨x, hx, he⟩ := closing_state res
  rw [hx]
  exact hP.leave (hP.evolves he h)

/-- **An invariant that holds at the start holds at the end**, whatever comes of the parse. -/
theorem Invariant.run (hP : Invariant P) (entry : Entry) (hs : P (.start (.ofList tokens))) :
    P (Result.state (entry.run options (.start (.ofList tokens)))) := by
  have hopened : P (opened tokens) := hP.enter _ _ hs
  have hrun := run_runsTo entry options tokens
  generalize entry.run options (.start (.ofList tokens)) = res at hrun ⊢
  cases hrun with
  | tooDeep => exact hP.closing (hP.edit (.tooDeep _ _) hopened)
  | query _ h =>
    exact hP.closing (hP.expectOneOf _ _ (hP.evolves (h.evolves (opened_proper tokens)) hopened))
  | queryStop _ h => exact hP.closing (hP.evolves (h.evolves (opened_proper tokens)) hopened)
  | expression h => exact hP.trailing _ (hP.evolves (h.evolves (start_proper tokens)) hs)
  | expressionStop h => exact hP.evolves (h.evolves (start_proper tokens)) hs

/-- The state that a tree is taken from. -/
theorem Invariant.parse (hP : Invariant P) (entry : Entry) (hs : P (.start (.ofList tokens)))
    {t : ParseTree} (h : entry.parse options tokens = .ok t) :
    ∃ s, P s ∧ t.nodes = s.arena.nodes ∧ t.reported = s.arena.reported := by
  have hne : (TokenStream.ofList tokens).isEmpty = false := by
    cases entry <;> exact isEmpty_eq_false_of_run h (by simp)
  rw [parse_eq_finish entry hne] at h
  exact ⟨_, hP.run entry hs, nodes_of_finish h⟩

/-! ## What is noted of errors -/

theorem sameErrors_leave (s : State) : s.arena.SameErrors s.leave.arena := by
  rw [State.leave]
  split
  · exact .refl _
  · exact Arena.sameErrors_close ..

theorem sameErrors_wrap (s : State) (label : Label) : s.arena.SameErrors (s.wrap label).arena := by
  rw [State.wrap]
  split
  · exact .refl _
  · exact Arena.sameErrors_wrap ..

theorem sameErrors_discardUntil (id : NodeId) (stop : KindSet) (n : Nat) (s : State) :
    s.arena.SameErrors (s.discardUntil id stop n).arena :=
  discardUntil_induction (P := fun t => s.arena.SameErrors t.arena) n (.refl _)
    fun _ ht _ _ => ht.trans (Arena.sameErrors_push ..)

theorem sameErrors_dropRest (s : State) (id : NodeId) : s.arena.SameErrors (s.dropRest id).arena :=
  (sameErrors_discardUntil ..).trans (Arena.sameErrors_close ..)

/-- A small change attaches an error at the cursor, or leaves the errors alone. -/
theorem Edit.errors (h : Edit s s') :
    s.arena.SameErrors s'.arena ∨
      ∃ e, e.index = s.cursor ∧ s'.arena = s.arena.attach s.node e := by
  cases h with
  | relabel label => exact .inl (Arena.sameErrors_relabel ..)
  | wrap label => exact .inl (sameErrors_wrap s label)
  | consume | discard => exact .inl (Arena.sameErrors_push ..)
  | search | giveUp => exact .inl (.refl _)
  | tooDeep limit => exact .inr ⟨s.errorHere (.tooDeep limit) ∅, rfl, rfl⟩
  | report strategy cause expected =>
    rcases report_arena strategy s.node (s.errorHere cause expected) s with harena | harena
    · exact .inl (harena ▸ .refl _)
    · exact .inr ⟨s.errorHere cause expected, rfl, harena⟩

/-- So does dropping what stands behind an expression. -/
theorem trailing_errors (strategy : Strategy) (s : State) :
    s.arena.SameErrors (Result.state (trailing strategy s)).arena ∨
      ∃ id e, e.index = s.cursor ∧
        (s.arena.attach id e).SameErrors (Result.state (trailing strategy s)).arena := by
  rw [trailing]
  split
  · have hreport := report_arena strategy (s.arena.root.getD 0) s.trailingError s
    cases hr : report strategy (s.arena.root.getD 0) s.trailingError s with
    | error a u =>
      rw [hr] at hreport
      rcases hreport with harena | harena
      · exact .inl (harena ▸ .refl _)
      · refine .inr ⟨s.arena.root.getD 0, s.trailingError, rfl, ?_⟩
        rw [harena]
        exact .refl _
    | ok _ u =>
      rw [hr] at hreport
      have hdrop := sameErrors_dropRest u (s.arena.root.getD 0)
      rcases (hreport : u.arena = _ ∨ u.arena = _) with harena | harena
      · exact .inl (harena ▸ hdrop)
      · exact .inr ⟨_, s.trailingError, rfl, harena ▸ hdrop⟩
  · exact .inl (.refl _)

/-- An error in the arena is at the cursor or behind it. -/
def ErrorsBehind (s : State) : Prop :=
  ∀ id e, s.arena.errorAt id = some e → e.index ≤ s.cursor

theorem ErrorsBehind.congr (h : ErrorsBehind s) (hsame : s.arena.SameErrors s'.arena)
    (hcursor : s.cursor ≤ s'.cursor) : ErrorsBehind s' := by
  intro id e he
  rw [hsame.errorAt_eq] at he
  exact Nat.le_trans (h id e he) hcursor

/-- What attaches an error at the cursor. -/
theorem ErrorsBehind.attach (h : ErrorsBehind s) {id : NodeId} {e : SyntaxError}
    (he : e.index = s.cursor) (hsame : (s.arena.attach id e).SameErrors s'.arena)
    (hcursor : s.cursor ≤ s'.cursor) : ErrorsBehind s' := by
  intro id' e' herror
  rw [hsame.errorAt_eq] at herror
  rcases Arena.errorAt_attach herror with hold | rfl
  · exact Nat.le_trans (h id' e' hold) hcursor
  · rw [he]
    exact hcursor

theorem trailing_advances (strategy : Strategy) (s : State) :
    Advances s.stream (Result.state (trailing strategy s)).stream := by
  rw [trailing]
  split
  · obtain ⟨hstream, -⟩ := report_keeps strategy (s.arena.root.getD 0) s.trailingError s
    cases hr : report strategy (s.arena.root.getD 0) s.trailingError s with
    | error a u =>
      rw [hr] at hstream
      exact (congrArg (Advances s.stream) hstream).mpr (.refl _)
    | ok _ u =>
      rw [hr] at hstream
      have hdrop : Advances u.stream (u.dropRest (s.arena.root.getD 0)).stream :=
        discardUntil_advances (s.arena.root.getD 0) ∅ u.stream.remaining u
      rw [show u.stream = s.stream from hstream] at hdrop
      exact hdrop
  · exact .refl _

/-- **The nodes noted are those with an error.** -/
theorem reports_invariant : Invariant fun s => s.arena.Reports := by
  constructor
  case edit =>
    intro s s' h hs
    rcases h.errors with hsame | ⟨e, -, harena⟩
    · exact hs.congr hsame
    · rw [harena]
      exact hs.attach _ e
  case enter =>
    intro s label floor hs
    exact hs.congr (Arena.sameErrors_openNode ..)
  case leave =>
    intro s hs
    exact hs.congr (sameErrors_leave s)
  case consume =>
    intro s hs
    exact hs.congr (Arena.sameErrors_push ..)
  case trailing =>
    intro s strategy hs
    rcases trailing_errors strategy s with hsame | ⟨id, e, -, hsame⟩
    · exact hs.congr hsame
    · exact (hs.attach id e).congr hsame

/-- **No error is ahead of the cursor.** -/
theorem errorsBehind_invariant : Invariant ErrorsBehind := by
  constructor
  case edit =>
    intro s s' h hs
    have hcursor : s.cursor ≤ s'.cursor := h.advances.cursor_le
    rcases h.errors with hsame | ⟨e, he, harena⟩
    · exact hs.congr hsame hcursor
    · have hattach : (s.arena.attach s.node e).SameErrors s'.arena := by
        rw [harena]
        exact .refl _
      exact hs.attach he hattach hcursor
  case enter =>
    intro s label floor hs
    exact hs.congr (Arena.sameErrors_openNode ..) (Nat.le_refl _)
  case leave =>
    intro s hs
    exact hs.congr (sameErrors_leave s) (Nat.le_of_eq (cursor_leave s).symm)
  case consume =>
    intro s hs
    exact hs.congr (Arena.sameErrors_push ..) (advances_consume s.stream).cursor_le
  case trailing =>
    intro s strategy hs
    have hcursor := (trailing_advances strategy s).cursor_le
    rcases trailing_errors strategy s with hsame | ⟨id, e, he, hsame⟩
    · exact hs.congr hsame hcursor
    · exact hs.attach he hsame hcursor

end Parser

end PipeQuery

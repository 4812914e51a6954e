import PipeQuery.Proofs.Lexer.Spacing
import PipeQuery.Proofs.Parser.Limit
import PipeQuery.Proofs.Tree.Bare

/-!
# The parser sees the kinds of tokens only

A parse keeps the tokens that it is given, and copies one of them into each of its errors. It
decides nothing by their texts and places. So a parse of bare tokens goes through the same states,
but for what is copied, and tokens of the same kinds come to the same outcome. What stands between
the tokens of a source matters no more than their places do.

## Main definitions

* `TokenStream.bare`, `State.bare`, `Result.bare`: streams, states and results without the texts and
  places of tokens
* `Blind`: a part of a parse that does the same on bare tokens

## Main results

* `Move.run_blind`, `Executes.bare`, `run_bare`: steps, scripts and parses do the same on bare
  tokens
* `parse_alike`: tokens of the same kinds have the same outcome, up to texts and places
* `parseSource_spaced`: tokens are read and parsed again from their texts with single spaces between
-/

namespace PipeQuery

open Token (Kind KindSet)

/-! ## Bare streams -/

namespace TokenStream

variable (x : TokenStream)

/-- The stream of bare tokens. -/
def bare : TokenStream := { x with tokens := x.tokens.map Token.bare }

theorem peek_bare (k : Nat) : x.bare.peek k = (x.peek k).bare := by
  have hlast : x.bare.last = x.last.bare := by
    rw [last, bare, Array.back?_map, last]
    cases x.tokens.back? <;> rfl
  rw [peek, hlast, peek]
  show (x.tokens.map Token.bare)[x.cursor + max k 1 - 1]?.getD _ = _
  rw [Array.getElem?_map]
  cases x.tokens[x.cursor + max k 1 - 1]? <;> rfl

@[simp]
theorem kindAt_bare (k : Nat) : x.bare.kindAt k = x.kindAt k := by
  rw [kindAt, peek_bare, Token.kind_bare, kindAt]

theorem consume_bare : x.bare.consume = x.consume.bare := by
  rw [consume, peek_bare, Token.isEof_bare, consume]
  split <;> rfl

@[simp]
theorem size_bare : x.bare.size = x.size := Array.size_map

theorem remaining_bare : x.bare.remaining = x.remaining := by
  rw [remaining, size_bare, remaining]
  rfl

theorem coming_bare : x.bare.coming = x.coming := by
  simp [coming, bare, List.map_drop, List.map_dropLast, Function.comp_def]

theorem Proper.bare {x : TokenStream} (h : x.Proper) : x.bare.Proper := by
  obtain ⟨ts, eof, hts, hne, heof, hcursor⟩ := h
  refine ⟨ts.map Token.bare, eof.bare, ?_, ?_, heof, ?_⟩
  · simp [TokenStream.bare, hts]
  · simpa using hne
  · simpa [TokenStream.bare] using hcursor

/-- The stream of tokens has nothing but their kinds when it is bare. -/
theorem bare_ofList {ts ts' : List Token} (h : ts.map Token.kind = ts'.map Token.kind) :
    (ofList ts).bare = (ofList ts').bare := by
  have hbare (ts : List Token) : ts.map Token.bare =
      (ts.map Token.kind).map fun k => { (default : Token) with kind := k } := by
    rw [List.map_map]
    rfl
  have hbody (ts : List Token) : (body ts).map Token.bare = body (ts.map Token.bare) := by
    rw [body, body, List.takeWhile_map]
    rfl
  have hclosing (ts : List Token) : (closing ts).bare = Token.bare (.eof .origin) :=
    Token.bare_eq_bare_iff.mpr (Token.isEof_iff.mp (isEof_closing ts))
  have htokens : (body ts ++ [closing ts]).map Token.bare =
      (body ts' ++ [closing ts']).map Token.bare := by
    rw [List.map_append, List.map_append, hbody, hbody, hbare, h, ← hbare, List.map_singleton,
      List.map_singleton, hclosing, hclosing]
  simpa only [bare, ofList, List.map_toArray] using
    congrArg (fun ts => TokenStream.mk (List.toArray ts) 0) htokens

end TokenStream

namespace Parser

/-! ## Bare states -/

namespace State

variable (s : State)

/-- The state of a parse of bare tokens. -/
def bare : State :=
  { s with
    stream := s.stream.bare
    arena := s.arena.bare
    lastError := s.lastError.map SyntaxError.bare
    failure := s.failure.map Failure.bare
    raised := s.raised.map SyntaxError.bare }

theorem start_bare (x : TokenStream) : (start x).bare = start x.bare := by
  simp [start, bare, Arena.bare, Arena.empty]

theorem frames_bare : s.bare.frames = s.frames := rfl

@[simp]
theorem node_bare : s.bare.node = s.node := rfl

theorem root_bare : s.bare.arena.root = s.arena.root := rfl

theorem lastError_bare : s.bare.lastError = s.lastError.map SyntaxError.bare := rfl

theorem failure_bare : s.bare.failure = s.failure.map Failure.bare := rfl

@[simp]
theorem kindAt_bare (k : Nat) : s.bare.kindAt k = s.kindAt k := s.stream.kindAt_bare k

@[simp]
theorem coming_bare : s.bare.coming = s.coming := s.stream.coming_bare

@[simp]
theorem remaining_bare : s.bare.stream.remaining = s.stream.remaining := s.stream.remaining_bare

@[simp]
theorem resyncSet_bare : s.bare.resyncSet = s.resyncSet := rfl

theorem errorHere_bare (cause : SyntaxError.Cause) (expected : KindSet) :
    s.bare.errorHere cause expected = (s.errorHere cause expected).bare := by
  rw [errorHere, errorHere, SyntaxError.bare, ← s.stream.peek_bare]
  rfl

theorem consume_bare : s.bare.consume = s.consume.bare := by
  simp only [consume, bare, TokenStream.consume_bare, Arena.bare_push]
  rfl

theorem discard_bare (id : NodeId) : s.bare.discard id = (s.discard id).bare := by
  simp only [discard, bare, TokenStream.consume_bare, Arena.bare_push]
  rfl

theorem discardUntil_bare (id : NodeId) (stop : KindSet) (n : Nat) :
    s.bare.discardUntil id stop n = (s.discardUntil id stop n).bare := by
  induction n generalizing s with
  | zero => rfl
  | succ n ih =>
    rw [discardUntil, discardUntil, kindAt_bare, discard_bare, ih]
    split <;> rfl

theorem enter_bare (label : Label) (floor : Nat) :
    s.bare.enter label floor = (s.enter label floor).bare := by
  simp only [enter, bare, Arena.bare_openNode, Arena.size_bare]
  rfl

theorem leave_bare : s.bare.leave = s.leave.bare := by
  rw [leave, leave, frames_bare]
  cases s.frames with
  | nil => rfl
  | cons f rest =>
    simp only [bare, Arena.bare_close]
    rfl

theorem relabel_bare (label : Label) : s.bare.relabel label = (s.relabel label).bare := by
  simp [relabel, bare, Arena.bare_relabel, node]

theorem wrap_bare (label : Label) : s.bare.wrap label = (s.wrap label).bare := by
  rw [wrap, wrap, frames_bare]
  cases s.frames with
  | nil => rfl
  | cons f rest =>
    simp only [bare, Arena.bare_wrap, Arena.size_bare]
    rfl

theorem raise_bare (id : NodeId) (e : SyntaxError) :
    s.bare.raise id e.bare = (s.raise id e).bare := by
  simp [raise, bare, Arena.bare_attach]

theorem terminate_bare (failure : Failure) :
    s.bare.terminate failure.bare = (s.terminate failure).bare := by
  simp [terminate, bare]

end State

variable {strategy : Strategy} {limit d f : Nat} {p : Script} {r : Rule} {s : State} {res : Result}
  {options : Options}

/-! ## Bare steps -/

/-- The end of a part of a parse of bare tokens. -/
def Result.bare : Result → Result
  | .ok _ s => .ok () s.bare
  | .error a s => .error a s.bare

/-- A part of a parse that does the same on bare tokens. -/
def Blind (x : Run Unit) : Prop := ∀ s, x s.bare = Result.bare (x s)

theorem report_bare (strategy : Strategy) (id : NodeId) (e : SyntaxError) (s : State) :
    report strategy id e.bare s.bare = Result.bare (report strategy id e s) := by
  rw [report, report, State.raise_bare]
  show (if s.recovering then _ else _) = _
  split
  · rfl
  · cases strategy with
    | bail =>
      exact congrArg (EStateM.Result.error Abort.halt)
        ((s.raise id e).terminate_bare (.bailed e))
    | recover => rfl

theorem reportHere_blind (strategy : Strategy) (cause : SyntaxError.Cause) (expected : KindSet) :
    Blind (reportHere strategy cause expected) := by
  intro s
  rw [reportHere, reportHere, State.errorHere_bare, State.node_bare, report_bare]

theorem fail_blind (strategy : Strategy) (cause : SyntaxError.Cause) (expected : KindSet) :
    Blind (fail strategy cause expected) := by
  intro s
  show EStateM.bind (reportHere strategy cause expected) _ s.bare =
    Result.bare (EStateM.bind (reportHere strategy cause expected) _ s)
  rw [EStateM.bind, EStateM.bind, reportHere_blind]
  cases reportHere strategy cause expected s <;> rfl

theorem failTooDeep_blind (limit : Nat) : Blind (failTooDeep limit) := by
  intro s
  have hattach (e : SyntaxError) :
      { s.bare with arena := s.bare.arena.attach s.node e.bare } =
        State.bare { s with arena := s.arena.attach s.node e } := by
    simp [State.bare, Arena.bare_attach]
  rw [failTooDeep, failTooDeep, State.errorHere_bare, State.node_bare, hattach]
  exact congrArg (EStateM.Result.error Abort.halt) (State.terminate_bare _ (.tooDeep _))

theorem recover_blind : Blind recover := by
  intro s
  have hdrop : State.discardUntil s.node s.resyncSet s.stream.remaining
      { s.bare with recovering := true } =
        (State.discardUntil s.node s.resyncSet s.stream.remaining
          { s with recovering := true }).bare :=
    State.discardUntil_bare { s with recovering := true } ..
  rw [recover, recover, State.remaining_bare, State.node_bare, State.resyncSet_bare, hdrop]
  generalize State.discardUntil s.node s.resyncSet s.stream.remaining
    { s with recovering := true } = t
  -- Whether the search has come to the end of the input is told by kinds and places.
  have hover : (t.bare.kindAt 1 = .endOfInput && s.bare.cursor < t.bare.cursor) =
      (t.kindAt 1 = .endOfInput && s.cursor < t.cursor) := by
    rw [State.kindAt_bare]
    rfl
  simp only [hover]
  split
  · rw [State.lastError_bare]
    cases t.lastError with
    | none => rfl
    | some e =>
      exact congrArg (EStateM.Result.error Abort.halt)
        (State.terminate_bare { t with lastError := none } (.unrecoverable e))
  · rfl

theorem recovering_blind {x : Run Unit} (h : Blind x) : Blind (recovering x) := by
  intro s
  rw [recovering, h, recovering]
  cases x s with
  | ok _ s => rfl
  | error a s =>
    cases a with
    | halt => rfl
    | resync => exact recover_blind s

theorem expectOneOf_blind (strategy : Strategy) (set : KindSet) :
    Blind (expectOneOf strategy set) := by
  intro s
  rw [expectOneOf_eq, expectOneOf_eq, State.kindAt_bare, State.kindAt_bare, reportHere_blind,
    fail_blind, State.consume_bare]
  split
  · rfl
  · split
    · cases reportHere strategy .extraneous set s with
      | error a t => rfl
      | ok _ t =>
        show EStateM.Result.ok () (t.bare.discard t.node).consume = _
        rw [State.discard_bare, State.consume_bare]
        rfl
    · rfl

/-- **A step does the same on bare tokens.** -/
theorem Move.run_blind (m : Move) (strategy : Strategy) : Blind (m.run strategy) := by
  intro s
  cases m with
  | relabel label => exact congrArg (EStateM.Result.ok ()) (s.relabel_bare label)
  | wrap label => exact congrArg (EStateM.Result.ok ()) (s.wrap_bare label)
  | take set => exact expectOneOf_blind strategy set s
  | check floor highest =>
    rw [run, checkFloor]
    split
    · rfl
    · exact reportHere_blind ..
  | fail expected => exact fail_blind ..
  | sync => exact recovering_blind (fail_blind strategy .noViable Rule.query.follow) s

theorem closing_bare (res : Result) : closing res.bare = Result.bare (closing res) := by
  cases res with
  | ok _ s => exact congrArg (EStateM.Result.ok ()) s.leave_bare
  | error a s =>
    cases a with
    | halt => exact congrArg (EStateM.Result.error Abort.halt) s.leave_bare
    | resync =>
      rw [Result.bare, closing, recover_blind, closing]
      cases recover s with
      | ok _ s => exact congrArg (EStateM.Result.ok ()) s.leave_bare
      | error a s => exact congrArg (EStateM.Result.error a) s.leave_bare

/-- **A script does the same on bare tokens.** -/
theorem Executes.bare (h : Executes strategy limit d p s res) :
    Executes strategy limit d p s.bare res.bare := by
  -- By induction on the execution: the tokens to come are of the same kinds, so the scripts with
  -- which rules start and phases go on are the same.
  induction h with
  | done => exact .done
  | step hm h _ ih =>
    refine .step hm ?_ ih
    rw [Move.run_blind, h]
    rfl
  | stop hm h =>
    refine .stop hm ?_
    rw [Move.run_blind, h]
    rfl
  | call hr _ hc _ ihb ihp =>
    rw [← State.enter_bare, ← State.coming_bare] at ihb
    refine .call hr ihb ?_ ihp
    rw [closing_bare, hc]
    rfl
  | callStop hr _ hc ihb =>
    rw [← State.enter_bare, ← State.coming_bare] at ihb
    refine .callStop hr ihb ?_
    rw [closing_bare, hc]
    rfl
  | deep hr =>
    rw [← closing_bare, ← failTooDeep_blind, ← State.enter_bare]
    exact .deep hr
  | go _ ih =>
    rw [← State.coming_bare] at ih
    exact .go ih
  | idle h hk hq =>
    refine .idle h ?_ ?_
    · rwa [State.resyncSet_bare, State.kindAt_bare]
    · rwa [State.coming_bare]

/-! ## Bare parses -/

/-- **A rule does the same on bare tokens.** -/
theorem parseRule_bare (hr : r ≠ .singleStatement) (hs : s.stream.Proper) :
    parseRule options d r f s.bare = Result.bare (parseRule options d r f s) := by
  have h := parseRule_calls options (d := d) (f := f) hr hs
  have h' := parseRule_calls options (d := d) (f := f) (s := s.bare) hr hs.bare
  cases d with
  | zero =>
    rw [Calls] at h h'
    rw [h, h', State.enter_bare, failTooDeep_blind, closing_bare]
  | succ d =>
    obtain ⟨res, hb, hres⟩ := h
    obtain ⟨res', hb', hres'⟩ := h'
    rw [State.coming_bare, State.enter_bare] at hb'
    rw [hres, hres', hb'.unique hb.bare, closing_bare]

theorem statement_bare (hs : s.stream.Proper) :
    parseRule options d .singleStatement 0 s.bare =
      Result.bare (parseRule options d .singleStatement 0 s) := by
  cases d with
  | zero =>
    rw [parseRule, within_eq, within_eq, State.enter_bare, failTooDeep_blind, closing_bare]
  | succ d =>
    rw [parseRule, within_eq, within_eq, State.enter_bare, ← closing_bare]
    congr 1
    show singleStatement _ _ _ = Result.bare (singleStatement _ _ _)
    rw [singleStatement_eq, singleStatement_eq,
      parseRule_bare (r := .query) (s := s.enter (.ofRule .singleStatement) 0) (by decide) hs]
    cases parseRule options d .query 0 (s.enter (.ofRule .singleStatement) 0) with
    | ok _ s => exact expectOneOf_blind ..
    | error a s => rfl

theorem dropRest_bare (s : State) (id : NodeId) : s.bare.dropRest id = (s.dropRest id).bare := by
  rw [State.dropRest, State.remaining_bare, State.discardUntil_bare, State.dropRest]
  simp only [State.bare, Arena.bare_close]
  rfl

theorem trailing_blind (strategy : Strategy) : Blind (trailing strategy) := by
  intro s
  have herror : s.bare.trailingError = s.trailingError.bare := by
    rw [State.trailingError, State.trailingError, SyntaxError.bare, ← s.stream.peek_bare]
    rfl
  rw [trailing, trailing, State.kindAt_bare, herror, State.root_bare, report_bare]
  split
  · cases report strategy (s.arena.root.getD 0) s.trailingError s with
    | error a t => rfl
    | ok _ t => exact congrArg (EStateM.Result.ok ()) (dropRest_bare t _)
  · rfl

theorem expression_bare (hs : s.stream.Proper) :
    standalone options f s.bare = Result.bare (standalone options f s) := by
  rw [standalone_eq, standalone_eq, parseRule_bare (by decide) hs]
  cases parseRule options options.maxDepth .booleanExpression f s with
  | ok _ s => exact trailing_blind ..
  | error a s => rfl

/-- **A parse does the same on bare tokens.** -/
theorem run_bare (entry : Entry) (hs : s.stream.Proper) :
    entry.run options s.bare = Result.bare (entry.run options s) := by
  cases entry with
  | statement => exact statement_bare hs
  | expression floor => exact expression_bare hs

theorem finish_bare (s : State) : finish s.bare = bareOutcome (finish s) := by
  have hfinish : s.bare.arena.finish s.bare.stream.tokens =
      (s.arena.finish s.stream.tokens).map ParseTree.bare := s.arena.finish_bare s.stream.tokens
  rw [finish, finish, State.failure_bare, hfinish]
  cases s.failure with
  | some failure => rfl
  | none => cases s.arena.finish s.stream.tokens <;> rfl

/-- A parse of tokens is one of bare tokens. -/
theorem parse_bare (entry : Entry) (options : Options) (ts : List Token) :
    bareOutcome (entry.parse options ts) =
      if (TokenStream.ofList ts).bare.isEmpty then .error .emptyInput
      else finish (Result.state (entry.run options (.start (TokenStream.ofList ts).bare))) := by
  have hempty : (TokenStream.ofList ts).bare.isEmpty = (TokenStream.ofList ts).isEmpty :=
    congrArg (· == 1) (TokenStream.ofList ts).size_bare
  rw [hempty]
  split
  · rename_i hnone
    rw [parse_of_isEmpty entry hnone]
    rfl
  · rename_i hsome
    have hrun : entry.run options (State.start (.ofList ts)).bare =
        Result.bare (entry.run options (.start (.ofList ts))) :=
      run_bare entry (TokenStream.proper_ofList ts)
    rw [parse_eq_finish entry (Bool.eq_false_iff.mpr hsome), ← finish_bare, ← State.start_bare,
      hrun]
    cases entry.run options (.start (.ofList ts)) <;> rfl

/-- Bare outcomes tell tokens of the same kinds not apart. -/
theorem bareOutcome_parse (entry : Entry) (options : Options) {ts ts' : List Token}
    (h : ts.map Token.kind = ts'.map Token.kind) :
    bareOutcome (entry.parse options ts) = bareOutcome (entry.parse options ts') := by
  rw [parse_bare, parse_bare, TokenStream.bare_ofList h]

end Parser

/-- **The parser sees the kinds of tokens only.** Tokens of the same kinds, whatever their texts and
places, have trees that are the same up to these, or they both have none, for the same reason and
with an error that is the same up to these. -/
theorem parse_alike (entry : Entry) (options : Options) {ts ts' : List Token}
    (h : ts.map Token.kind = ts'.map Token.kind) :
    AlikeOutcomes Failure.Alike (entry.parse options ts) (entry.parse options ts') :=
  alikeOutcomes_of_bare_eq (Parser.bareOutcome_parse entry options h)

/-- A row of tokens in which a pipe stands twice, with two sets of texts and places. -/
theorem parse_alike_renamed :
    let kinds : List Kind := [.fromCmd, .sourceName, .pipe, .pipe, .limitCmd, .integer]
    let ts := kinds.map Token.ofKind
    let ts' : List Token := kinds.map fun k => ⟨k, "x", ⟨7, 8, 2, 3⟩⟩
    ts.map Token.kind = ts'.map Token.kind ∧ ts ≠ ts' ∧
      AlikeOutcomes Failure.Alike (Entry.statement.parse ⟨52, .recover⟩ ts)
        (Entry.statement.parse ⟨52, .recover⟩ ts') :=
  ⟨by decide, by decide, parse_alike .statement ⟨52, .recover⟩ (by decide)⟩

/-! ## Sources with single spaces -/

/-- Failures of sources that were split into tokens, and whose tokens fail alike. -/
inductive SourceError.Alike : SourceError → SourceError → Prop
  | syntactic {f f' : Failure} (h : f.Alike f') : Alike (syntactic f) (syntactic f')

theorem AlikeOutcomes.syntactic {o o' : Except Failure ParseTree}
    (h : AlikeOutcomes Failure.Alike o o') :
    AlikeOutcomes SourceError.Alike (o.mapError .syntactic) (o'.mapError .syntactic) := by
  cases h with
  | tree h => exact .tree h
  | failure h => exact .failure (.syntactic h)

/-- **Blanks and comments do not matter.** The texts of the tokens of a source, written down with
single spaces between them, are read again as tokens of the same kinds and texts. And where these
tokens are parsed, the outcome is the same up to their places. -/
theorem parseSource_spaced {m : Lexer.Mode} {source : String} {ts : List Token}
    (h : tokenizeIn m source = .ok ts) :
    (∃ ts', tokenizeIn m (Lexer.spaced ts) = .ok ts' ∧ Lexer.SameWords ts ts') ∧
      ∀ (options : Options) (entry : Entry), entry.mode = m →
        AlikeOutcomes SourceError.Alike (parseSource options entry source)
          (parseSource options entry (Lexer.spaced ts)) := by
  obtain ⟨ts', hts', hwords⟩ := (Lexer.tokensFrom_spaced h .start).2
  rw [← Lexer.toList_spaced] at hts'
  refine ⟨⟨ts', hts', hwords⟩, fun options entry hmode => ?_⟩
  rw [← hmode] at h hts'
  have halike := alikeOutcomes_of_bare_eq (Parser.bareOutcome_parse entry options hwords.1)
  rw [parseSource, h, parseSource, tokenizeIn, hts']
  exact halike.syntactic

/-- An empty string and a string behind it, which stay apart from three quotes, and a number with
its point in front of the exponent. -/
theorem parseSource_spaced_emptyString :
    let source := "\"\"/**/\"a\"*1.e2"
    let ts : List Token := [⟨.string, "\"\"", ⟨0, 2, 1, 1⟩⟩, ⟨.string, "\"a\"", ⟨6, 9, 1, 7⟩⟩,
      ⟨.star, "*", ⟨9, 10, 1, 10⟩⟩, ⟨.decimal, "1.e2", ⟨10, 14, 1, 11⟩⟩, .eof ⟨14, 14, 1, 15⟩]
    tokenizeIn .expression source = .ok ts ∧ Lexer.spaced ts = "\"\" \"a\" * 1.e2" ∧
      (∃ ts', tokenizeIn .expression (Lexer.spaced ts) = .ok ts' ∧ Lexer.SameWords ts ts') ∧
      ∀ (options : Options) (entry : Entry), entry.mode = .expression →
        AlikeOutcomes SourceError.Alike (parseSource options entry source)
          (parseSource options entry (Lexer.spaced ts)) := by
  intro source ts
  have hts : tokenizeIn .expression source = .ok ts := by decide +kernel
  exact ⟨hts, by decide +kernel, parseSource_spaced hts⟩

end PipeQuery

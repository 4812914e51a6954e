import PipeQuery.Proofs.Lexer.Readings
import PipeQuery.Proofs.Lexer.Separators
import PipeQuery.Proofs.Parser.Located
import PipeQuery.Proofs.Parser.Outcomes
import PipeQuery.Proofs.Text.Lines

/-!
# Carets at errors

An error of the lexer stands at a character of its source, and a syntax error at a token. Neither
such a character nor the first one of a token ends a line, so the caret at an error is below the
character that the error is about.

## Main definitions

* `HasCaret`: a place of a source with a caret at it
* `Parser.Pointed`: errors that tell of the tokens at their places

## Main results

* `Lexer.exists_pointsAt_error`, `Lexer.exists_pointsAt_token`: carets at lexical errors and tokens
* `Parser.pointed_kept`: what the acts of a parse keep of the errors that end it
* `carets_point`: carets at all errors of a source
-/

namespace PipeQuery

/-- The caret for a line and a column of a source is below the character behind `offset` bytes. -/
def HasCaret (source : String) (line column offset : Nat) : Prop :=
  ∃ c text pad, PointsAt source line column offset c text pad

namespace Lexer

variable {m : Mode} {source : String} {tokens : List Token} {t : Token}

theorem exists_pointsAt_error {e : Error} (h : tokenizeIn m source = .error e) :
    HasCaret source e.position.line e.position.column e.position.offset := by
  obtain ⟨before, c, after, hsource, hposition, hlayout, -⟩ := tokensFrom_error_head h
  have hne {d : Char} (hd : isLayout d = true) : c ≠ d := by
    rintro rfl
    rw [hlayout] at hd
    cases hd
  rw [hposition]
  exact exists_pointsAt hsource (hne rfl) (hne rfl)

/-- A token starts with a character that ends no line. -/
theorem exists_pointsAt_token (h : tokenizeIn m source = .ok tokens) (ht : t ∈ tokens)
    (hk : t.kind ≠ .endOfInput) :
    HasCaret source t.span.line t.span.column t.span.start := by
  rw [← map_token_withModes (.start m) tokens, List.mem_map] at ht
  obtain ⟨r, hr, rfl⟩ := ht
  have hstart : Position.start = .after .start [] := rfl
  obtain ⟨past, rest, l, hsource, hscan, htoken⟩ :=
    (reads_of_tokensFrom h).scanned hstart hr hk
  obtain ⟨htext, hne⟩ := scan_starts hscan
  obtain ⟨c, rest, rfl⟩ : ∃ c rest', rest = c :: rest' := by
    refine List.exists_cons_of_ne_nil ?_
    rintro rfl
    exact hne (List.append_eq_nil_iff.mp htext).1
  have hblank : isBlank c = false := by
    rw [← Bool.not_eq_true]
    intro hblank
    rw [scan_blank r.mode hblank] at hscan
    cases hscan
  have hend {d : Char} (hd : isBlank d = true) : c ≠ d := (ne_of_isBlank hd hblank).symm
  rw [htoken]
  exact exists_pointsAt hsource (hend rfl) (hend rfl)

end Lexer

namespace Parser

variable {strategy : Strategy} {keeps : Prop} {s s' t : State} {tokens : List Token}
  {options : Options} {e : SyntaxError}

/-- The last error, and the one that has ended the parse, tell of the tokens at their places. -/
structure Pointed (s : State) : Prop where
  remembered : ∀ e, s.lastError = some e → s.stream.tokens[e.index]? = some e.token
  reason : ∀ failure e, s.failure = some failure → failure.error? = some e →
    s.stream.tokens[e.index]? = some e.token

/-- Tokens may be read, and no error is met. -/
theorem Pointed.advance (h : Pointed s) (hadv : Advances s.stream s'.stream)
    (he : s'.lastError = s.lastError) (hf : s'.failure = s.failure) : Pointed s' := by
  constructor
  case remembered => rw [hadv.tokens_eq, he]; exact h.remembered
  case reason => rw [hadv.tokens_eq, hf]; exact h.reason

/-- The first reason is kept. -/
theorem Pointed.terminate {failure : Failure} (h : Pointed s)
    (htoken : ∀ e, failure.error? = some e → s.stream.tokens[e.index]? = some e.token) :
    Pointed (s.terminate failure) := by
  constructor
  case remembered => exact h.remembered
  case reason =>
    intro failure' e hf he
    rcases Option.or_eq_some_iff.mp hf with hold | ⟨-, hnew⟩
    · exact h.reason failure' e hold he
    · cases hnew
      exact htoken e he

theorem Pointed.leave (h : Pointed s) : Pointed s.leave := by
  rw [State.leave]
  split
  · exact h
  · exact h.advance (.refl _) rfl rfl

/-- An error that is met tells of the current token. -/
theorem Meets.token (he : Meets s e) (hs : s.stream.Proper) :
    s.stream.tokens[e.index]? = some e.token := by
  rw [he.index_eq, he.token_eq]
  exact hs.getElem?_cursor

theorem Pointed.report (h : Pointed s) (hs : s.stream.Proper) (he : Meets s e) (id : NodeId) :
    Pointed (Result.state (report strategy id e s)) := by
  rw [report_state]
  split
  · exact h
  · have hraise : Pointed (s.raise id e) := h.advance (.refl _) rfl rfl
    cases strategy with
    | bail =>
      refine hraise.terminate ?_
      rintro _ ⟨⟩
      exact he.token hs
    | recover =>
      constructor
      case remembered =>
        rintro _ ⟨⟩
        exact he.token hs
      case reason => exact h.reason

/-- **The error that ends a parse tells of the token at its place.** -/
theorem pointed_kept : Kept strategy keeps Pointed := by
  constructor
  case act =>
    intro s s' hs h hp
    cases h with
    | relabel | close => exact hp.advance (.refl _) rfl rfl
    | wrap label =>
      rw [State.wrap]
      split
      · exact hp
      · exact hp.advance (.refl _) rfl rfl
    | consume | drop => exact hp.advance (advances_consume _) rfl rfl
    | report _ he _ => exact hp.report hs he _
    | stray => exact hp.advance ((advances_consume _).trans (advances_consume _)) rfl rfl
    | @giveUp id e _ _ hl =>
      -- The error was met before, and the tokens are the same.
      have hdrop : Pointed (s.discard id) := hp.advance (advances_consume _) rfl rfl
      have hforgotten : Pointed { s.discard id with lastError := none } :=
        ⟨(fun _ he => by cases he), hdrop.reason⟩
      refine hforgotten.terminate ?_
      rintro _ ⟨⟩
      exact hdrop.remembered e hl
    | tooDeep limit =>
      have hattach : Pointed
          { s with arena := s.arena.attach s.node (s.errorHere (.tooDeep limit) ∅) } :=
        hp.advance (.refl _) rfl rfl
      refine hattach.terminate ?_
      rintro _ ⟨⟩
      exact hs.getElem?_cursor
  case enter => exact fun _ _ hp => hp.advance (.refl _) rfl rfl
  case leave => exact fun _ hp _ => hp.leave

theorem Arrives.pointed (h : Arrives strategy keeps tokens t) : Pointed t := by
  have hstart : Pointed (.start (.ofList tokens)) :=
    ⟨(fun _ he => by cases he), fun _ _ hf => by cases hf⟩
  rcases pointed_kept.arrives h hstart with ht | ⟨u, rfl, hu, -⟩
  · exact ht
  · have hend : Pointed u.consume := hu.advance (advances_consume _) rfl rfl
    exact hend.leave

/-- The tokens stay the same in a whole parse. -/
theorem Arrives.tokens_eq (h : Arrives strategy keeps tokens t) :
    t.stream.tokens = (TokenStream.ofList tokens).tokens := by
  cases h with
  | closed h ht => exact ((Acts.nest h).trans ht).advances.tokens_eq
  | @matched u h hk =>
    rw [stream_leave]
    exact (u.stream.tokens_consume).trans h.advances.tokens_eq

/-- A token of a stream that is no end of the input is one of the tokens that it is made of. -/
theorem mem_of_getElem?_ofList {i : Nat} {token : Token}
    (h : (TokenStream.ofList tokens).tokens[i]? = some token) (hk : token.kind ≠ .endOfInput) :
    token ∈ tokens := by
  rw [← Array.getElem?_toList, TokenStream.toList_tokens_ofList] at h
  rcases List.mem_append.mp (List.mem_of_getElem? h) with hbody | hclosing
  · exact (List.takeWhile_prefix _).subset hbody
  · rw [List.mem_singleton.mp hclosing] at hk
    exact absurd (Token.isEof_iff.mp (TokenStream.isEof_closing tokens)) hk

/-- The errors of a tree are of the tokens that were parsed, or of the end of the input. -/
theorem mem_of_diagnostics {entry : Entry} {tree : ParseTree}
    (h : entry.parse options tokens = .ok tree) (he : e ∈ tree.diagnostics)
    (hk : e.token.kind ≠ .endOfInput) : e.token ∈ tokens := by
  obtain ⟨-, hs⟩ := parse_yields h
  obtain ⟨s', hs', hlocated⟩ := parse_located h
  obtain ⟨id, herror⟩ := hs'.mem_diagnostics.mp he
  obtain ⟨n, hn, hne⟩ := Option.bind_eq_some_iff.mp herror
  have htoken := (hlocated id n e hn hne).token_eq
  rw [← hs'.tokens_eq, hs.tokens_eq, (run_arrives entry options tokens).tokens_eq] at htoken
  exact mem_of_getElem?_ofList htoken hk

/-- The error that ends a parse is of a token that was parsed, or of the end of the input. -/
theorem mem_of_failure {entry : Entry} {failure : Failure}
    (h : entry.parse options tokens = .error failure) (he : failure.error? = some e)
    (hk : e.token.kind ≠ .endOfInput) : e.token ∈ tokens := by
  rcases parse_error h with ⟨-, rfl⟩ | ⟨s, hrun, hf⟩
  · cases he
  · have harrives := run_arrives entry options tokens
    rw [hrun] at harrives
    have htoken := harrives.pointed.reason failure e hf he
    rw [Arrives.tokens_eq harrives] at htoken
    exact mem_of_getElem?_ofList htoken hk

end Parser

open Lexer

/-- **Carets point at what is wrong.** The caret for the place of a lexical error is below the
character at the byte of the error, and the one for the place of a token, the end of the input
apart, below the first character of the token. So the caret for a syntax error, whether it stands in
a tree or has ended the parse, is below the first character of the token that it is about. -/
theorem carets_point (m : Mode) (source : String) :
    (∀ e, tokenizeIn m source = .error e →
      HasCaret source e.position.line e.position.column e.position.offset) ∧
    ∀ tokens, tokenizeIn m source = .ok tokens →
      (∀ t ∈ tokens, t.kind ≠ .endOfInput →
        HasCaret source t.span.line t.span.column t.span.start) ∧
      ∀ (entry : Entry) (options : Options),
        (∀ tree, entry.parse options tokens = .ok tree → ∀ e ∈ tree.diagnostics,
          e.token.kind ≠ .endOfInput →
          HasCaret source e.token.span.line e.token.span.column e.token.span.start) ∧
        ∀ failure, entry.parse options tokens = .error failure → ∀ e, failure.error? = some e →
          e.token.kind ≠ .endOfInput →
          HasCaret source e.token.span.line e.token.span.column e.token.span.start := by
  refine ⟨fun e h => exists_pointsAt_error h, fun tokens h => ?_⟩
  have htokens (t : Token) (ht : t ∈ tokens) (hk : t.kind ≠ .endOfInput) :
      HasCaret source t.span.line t.span.column t.span.start := exists_pointsAt_token h ht hk
  refine ⟨htokens, fun entry options => ⟨?_, ?_⟩⟩
  · intro tree htree e he hk
    exact htokens e.token (Parser.mem_of_diagnostics htree he hk) hk
  · intro failure hfailure e he hk
    exact htokens e.token (Parser.mem_of_failure hfailure he hk) hk

/-- A character behind a tab, on a line that starts inside a string, where the line before ends with
a carriage return. -/
theorem carets_point_tab :
    let source := "row \"\"\"é\r\nß\"\"\",\tà"
    tokenizeIn .command source = .error ⟨.unexpected 'à', ⟨18, 2, 7⟩⟩ ∧ HasCaret source 2 7 18 ∧
      caret? source 2 7 = some "ß\"\"\",\tà\n     \t^" := by
  intro source
  have h : tokenizeIn .command source = .error ⟨.unexpected 'à', ⟨18, 2, 7⟩⟩ := by decide +kernel
  exact ⟨h, (carets_point .command source).1 _ h, by decide +kernel⟩

end PipeQuery

import PipeQuery.Proofs.Lexer.Failure
import PipeQuery.Proofs.Lexer.Spacing

/-!
# What separates tokens

Words end at every character with the property `White_Space`, but only four of these characters are
skipped in front of a token. At any other the lexer stops, in whatever mode: no token starts with a
blank, and the blank is reported as an unexpected character.

## Main definitions

* `Lexer.apart`: the texts of tokens with a character of its own in front of each but the first

## Main results

* `Lexer.scan_blank`: no token starts with a blank
* `Lexer.tokensFrom_blank`: a blank in front of a text is skipped or is the place of an error
* `Lexer.tokensFrom_error_head`: the character at the place of an error
* `blanks_separate`: tokens with blanks between them
-/

namespace PipeQuery

namespace Lexer

variable {cs : List Char} {modes : Modes} {p : Position} {ts : List Token} {c : Char}

/-! ## A blank in front of a text -/

theorem ne_of_isBlank (hc : isBlank c = true) {d : Char} (hd : isBlank d = false) : c ≠ d := by
  rintro rfl
  rw [hd] at hc
  cases hc

theorem operator_blank (hc : isBlank c = true) (cs : List Char) : operator (c :: cs) = none := by
  unfold operator
  split
  case h_20 => rfl
  -- Every mark is spelled without blanks.
  all_goals
    rename_i heq
    obtain ⟨rfl, -⟩ := List.cons.inj heq
    cases hc

/-- **No token starts with a blank**, in no mode. -/
theorem scan_blank (m : Mode) (hc : isBlank c = true) (cs : List Char) :
    scan m (c :: cs) = .error (.unexpected c) := by
  have hmark {d : Char} (hd : isBlank d = false) : c ≠ d := ne_of_isBlank hc hd
  have hquote {d : Char} (hd : isBlank d = false) : ¬ (c :: cs).head? = some d :=
    fun h => hmark hd (Option.some.inj h)
  have hword {p : Char → Bool} (hp : Blankless p) : ∀ d ∈ (c :: cs).head?, p d = false := by
    rintro d hd
    obtain rfl := Option.some.inj hd
    exact hp c hc
  cases m with
  | command =>
    have hnone : commandMark (c :: cs) = none := by
      refine commandMark_eq_none_iff.mpr fun d hd => ?_
      obtain rfl := Option.some.inj hd
      exact ⟨hmark rfl, hmark rfl, hmark rfl⟩
    have hrun := takeRun1_eq_none_iff.mpr (hword blankless_isCommandPart)
    rw [scan, hnone, commandWord, hrun]
    rfl
  | expression =>
    have hnumber := number_eq_none_iff.mpr (hword blankless_isDigit)
    have hname := expressionWord_eq_none_iff.mpr (hword blankless_isNameStart)
    rw [scan, if_neg (hquote rfl), if_neg (hquote rfl), hnumber, hname, operator_blank hc]
    rfl
  | source =>
    have hnone : sourceMark (c :: cs) = none := by
      refine sourceMark_eq_none_iff.mpr fun d hd => ?_
      obtain rfl := Option.some.inj hd
      exact ⟨hmark rfl, hmark rfl, hmark rfl, hmark rfl, hmark rfl⟩
    have hrun := takeRun1_eq_none_iff.mpr (hword blankless_isSourcePart)
    rw [scan, if_neg (hquote rfl), hnone, sourceWord, hrun]
    rfl

/-- Nothing is skipped in front of a blank that is no layout. -/
theorem gapless_blank (hc : isBlank c = true) (hlayout : isLayout c = false) (cs : List Char) :
    Gapless (c :: cs) := by
  have hslash : '/' ≠ c := (ne_of_isBlank hc rfl).symm
  refine ⟨?_, ?_, ?_⟩
  · rintro d hd
    obtain rfl := Option.some.inj hd
    exact hlayout
  · exact fun h => hslash (List.cons_prefix_cons.mp h).1
  · exact fun h => hslash (List.cons_prefix_cons.mp h).1

/-- **A blank in front of a text is skipped, or the lexer stops at it**: of the characters that end
a word, it passes the layout characters only. -/
theorem tokensFrom_blank (modes : Modes) (p : Position) (hc : isBlank c = true) (cs : List Char) :
    tokensFrom modes p (c :: cs) =
      if isLayout c then tokensFrom modes (p.next c) cs else .error ⟨.unexpected c, p⟩ := by
  split
  · rename_i hlayout
    exact tokensFrom_layout modes p hlayout cs
  · rename_i hlayout
    have hgapless := gapless_blank hc (by simpa using hlayout) cs
    exact tokensFrom_stuck hgapless.trivia_eq (gapless_iff.mp hgapless).2 (by simp)
      (scan_blank modes.current hc cs)

/-! ## The character at the place of an error -/

/-- Behind what is skipped stands no layout. -/
theorem not_isLayout_of_trivia {gap rest : List Char} (hgap : trivia cs = (gap, c :: rest)) :
    isLayout c = false := by
  have hpiece := triviaPiece_of_trivia hgap
  rw [triviaPiece, Option.or_eq_none_iff, takeRun1_eq_none_iff] at hpiece
  exact hpiece.1 c rfl

/-- **At the place of an error stands a character that is no layout**, and it is the one that is
called unexpected, if any is. -/
theorem tokensFrom_error_head {e : Error} (h : tokensFrom modes p cs = .error e) :
    ∃ before c rest, cs = before ++ c :: rest ∧ e.position = p.after before ∧
      isLayout c = false ∧ ∀ found, e.cause = .unexpected found → found = c := by
  replace h := fails_of_tokensFrom h
  induction h with
  | @stuck modes p cs gap rest cause hgap hstuck =>
    obtain ⟨c, rest, rfl, hfound⟩ := hstuck.head
    exact ⟨gap, c, rest, (append_of_trivia hgap).symm, rfl, not_isLayout_of_trivia hgap, hfound⟩
  | @token modes p cs gap rest l e hgap _ hscan _ ih =>
    obtain ⟨before, c, behind, hrest, hposition, hc⟩ := ih
    have happend := append_of_trivia hgap
    rw [← (scan_starts hscan).1, hrest] at happend
    refine ⟨gap ++ (l.text ++ before), c, behind, ?_, ?_, hc⟩
    · rw [← happend, List.append_assoc, List.append_assoc]
    · rw [hposition, Position.after_append, Position.after_append]

/-! ## Tokens with blanks between them -/

/-- The text of a first token, and those of others behind a character each. -/
def apart (first : Token) (ws : List (Char × Token)) : List Char :=
  first.text.toList ++ behindEach ws

/-- **The lexer stops at the first blank between two tokens that is no layout.** -/
theorem tokensFrom_apart (h : tokensFrom modes p cs = .ok ts) {first t : Token}
    {past rest : List (Char × Token)}
    (hws : words ts = first :: (past ++ (c, t) :: rest).map Prod.snd)
    (hblank : ∀ w ∈ past ++ (c, t) :: rest, isBlank w.1 = true)
    (hpast : ∀ w ∈ past, isLayout w.1 = true) (hc : isLayout c = false) (p' : Position) :
    tokensFrom modes p' (apart first (past ++ (c, t) :: rest)) =
      .error ⟨.unexpected c, p'.after (apart first past)⟩ := by
  replace h := reads_of_tokensFrom h
  induction h generalizing first past p' with
  | last => cases hws
  | @token modes p cs gap rest' l ts hgap hopen hscan _ ih =>
    rw [words_token hscan, List.cons.injEq] at hws
    obtain ⟨rfl, hws⟩ := hws
    have htext : (l.token (p.after gap)).text.toList = l.text := String.toList_ofList
    rw [apart, apart, htext, tokensFrom_replaced hgap hopen hscan
      (replaces_behindEach hblank l.rest)]
    cases past with
    | nil =>
      rw [List.nil_append, behindEach_cons, tokensFrom_blank _ _ (hblank (c, t) (by simp)),
        if_neg (by simpa using hc), behindEach, List.flatMap_nil, List.append_nil]
      rfl
    | cons w past =>
      -- The blank in front of the next token is layout, so the error stands behind that token.
      have hnext := ih hws (fun w' hw' => hblank w' (.tail w hw'))
        (fun w' hw' => hpast w' (.tail w hw')) (((p'.after l.text)).next w.1)
      rw [List.cons_append, behindEach_cons, tokensFrom_layout _ _ (hpast w (by simp)),
        behindEach_cons, Position.after_append, Position.after_cons]
      exact congrArg (Except.map _) hnext

end Lexer

open Lexer

/-- **Words end at every blank, and layout is skipped.** An unexpected character is never layout. A
blank in front of any text, in whatever modes, is skipped if it is layout, and otherwise the lexer
stops at it. So the tokens of a source, written down with blanks between them, are read again as
tokens of the same kinds and texts if all the blanks are layout, and otherwise the first of them
that is not is the unexpected character. -/
theorem blanks_separate (m : Mode) :
    (∀ source found p, tokenizeIn m source = .error ⟨.unexpected found, p⟩ →
      isLayout found = false) ∧
    (∀ modes p c cs, isBlank c = true → tokensFrom modes p (c :: cs) =
      if isLayout c then tokensFrom modes (p.next c) cs else .error ⟨.unexpected c, p⟩) ∧
    ∀ source tokens first ws, tokenizeIn m source = .ok tokens →
      words tokens = first :: ws.map Prod.snd → (∀ w ∈ ws, isBlank w.1 = true) →
      ((∀ w ∈ ws, isLayout w.1 = true) →
        ∃ tokens', tokenizeIn m (String.ofList (apart first ws)) = .ok tokens' ∧
          SameWords tokens tokens') ∧
      ∀ past c t rest, ws = past ++ (c, t) :: rest → (∀ w ∈ past, isLayout w.1 = true) →
        isLayout c = false → tokenizeIn m (String.ofList (apart first ws)) =
          .error ⟨.unexpected c, .after .start (apart first past)⟩ := by
  refine ⟨?_, fun modes p c cs hc => tokensFrom_blank modes p hc cs, ?_⟩
  · intro source found p h
    obtain ⟨-, c, -, -, -, hlayout, hfound⟩ := tokensFrom_error_head h
    rwa [hfound found rfl]
  · intro source tokens first ws h hws hblank
    rw [tokenizeIn, String.toList_ofList]
    constructor
    · intro hlayout
      -- The character in front of the first token is left out, so any layout will do.
      have hws' : ((' ', first) :: ws).map Prod.snd = words tokens := hws.symm
      have hlayout' : ∀ w ∈ (' ', first) :: ws, isLayout w.1 = true :=
        List.forall_mem_cons.mpr ⟨rfl, hlayout⟩
      exact tokensFrom_parted h hws' hlayout' .start
    · rintro past c t rest rfl hpast hc
      exact tokensFrom_apart h hws hblank hpast hc .start

/-- Five tokens with a tab, a line feed, a no-break space and a space between them. -/
theorem blanks_separate_noBreakSpace :
    let first : Token := ⟨.fromCmd, "from", ⟨0, 4, 1, 1⟩⟩
    let logs : Token := ⟨.sourceName, "logs", ⟨5, 9, 1, 6⟩⟩
    let pipe : Token := ⟨.pipe, "|", ⟨9, 10, 1, 10⟩⟩
    let limit : Token := ⟨.limitCmd, "limit", ⟨10, 15, 1, 11⟩⟩
    let five : Token := ⟨.integer, "5", ⟨16, 17, 1, 17⟩⟩
    let tokens := [first, logs, pipe, limit, five, .eof ⟨17, 17, 1, 18⟩]
    tokenizeIn .command "from logs|limit 5" = .ok tokens ∧
      (∃ tokens', tokenizeIn .command "from\tlogs\n|\rlimit 5" = .ok tokens' ∧
        SameWords tokens tokens') ∧
      tokenizeIn .command "from\tlogs\n|\u00a0limit 5" =
        .error ⟨.unexpected '\u00a0', ⟨11, 2, 2⟩⟩ := by
  intro first logs pipe limit five tokens
  let past : List (Char × Token) := [('\t', logs), ('\n', pipe)]
  have h : tokenizeIn .command "from logs|limit 5" = .ok tokens := by decide +kernel
  refine ⟨h, ?_, ?_⟩
  · let ws := past ++ [('\r', limit), (' ', five)]
    have hread := ((blanks_separate .command).2.2 _ tokens first ws h (by decide +kernel)
      (by decide)).1 (by decide)
    have hsource : String.ofList (apart first ws) = "from\tlogs\n|\rlimit 5" := by decide +kernel
    rwa [hsource] at hread
  · let ws := past ++ [('\u00a0', limit), (' ', five)]
    have hread := ((blanks_separate .command).2.2 _ tokens first ws h (by decide +kernel)
      (by decide)).2 past '\u00a0' limit [(' ', five)] rfl (by decide) (by decide)
    have hsource : String.ofList (apart first ws) = "from\tlogs\n|\u00a0limit 5" := by
      decide +kernel
    have hposition : Position.start.after (apart first past) = ⟨11, 2, 2⟩ := by decide +kernel
    rwa [hsource, hposition] at hread

/-- A no-break space ends the word in front of it and is called unexpected. -/
theorem noBreakSpace_unexpected :
    ¬ ∀ (m : Mode) (source : String) (found : Char) (p : Position),
      tokenizeIn m source = .error ⟨.unexpected found, p⟩ → isBlank found = false := by
  intro h
  have herror : tokenizeIn .command "from\u00a0logs" = .error ⟨.unexpected '\u00a0', ⟨4, 1, 5⟩⟩ := by
    decide +kernel
  have hblank := h _ _ _ _ herror
  revert hblank
  decide

end PipeQuery

import PipeQuery.Proofs.Lexer.Stability

/-!
# Where lexing fails

A source that cannot be lexed is cut in two by its error: what stands before the place of the error
is lexed to the end, and no token can be read from what stands behind it. The error says why.

## Main definitions

* `Lexer.Stuck`: why no token can be read from a text in a mode
* `Lexer.Fails`: how lexing a text ends in an error

## Main results

* `Lexer.scan_stuck`: what is said of a text without a token
* `Lexer.tokensFrom_error`: the text before an error, and the one behind it
* `tokenizeIn_error`: an error points at the first place that cannot be lexed
-/

namespace PipeQuery

namespace Lexer

open Token (Kind)

variable {cs rest : List Char} {cause : Cause} {m : Mode} {modes : Modes} {p : Position} {e : Error}

/-- Why no token can be read from a text in the mode `m`: what is never closed starts here, or a
character that no token of the mode starts with stands here. -/
inductive Stuck (m : Mode) : Cause → List Char → Prop
  | openComment {cs : List Char} (h : ¬ ['*', '/'] <:+: cs) :
    Stuck m .openComment ('/' :: '*' :: cs)
  | openString {cs : List Char} (hm : m = .expression) (h : stringLiteral ('"' :: cs) = none) :
    Stuck m .openString ('"' :: cs)
  | openName {cs : List Char} (hm : m = .expression ∨ m = .source)
    (h : quotedName ('\x60' :: cs) = none) : Stuck m .openName ('\x60' :: cs)
  | unexpected {c : Char} {cs : List Char} (h : scan m (c :: cs) = .error (.unexpected c)) :
    Stuck m (.unexpected c) (c :: cs)

/-- The first character of a text without a token is the one that is called unexpected, if any
is. -/
theorem Stuck.head (h : Stuck m cause cs) :
    ∃ c rest, cs = c :: rest ∧ ∀ found, cause = .unexpected found → found = c := by
  cases h with
  | openComment => exact ⟨_, _, rfl, by simp⟩
  | openString => exact ⟨_, _, rfl, by simp⟩
  | openName => exact ⟨_, _, rfl, by simp⟩
  | unexpected =>
    refine ⟨_, _, rfl, ?_⟩
    rintro found hfound
    exact (Cause.unexpected.inj hfound).symm

theorem takeThrough_eq_none {mark : List Char} (hmark : mark ≠ [])
    (h : takeThrough mark cs = none) : ¬ mark <:+: cs := by
  induction cs with
  | nil => rwa [List.infix_nil]
  | cons c cs ih =>
    rw [takeThrough] at h
    split at h
    · cases h
    · rename_i hprefix
      rw [List.infix_cons_iff]
      rintro (hhere | hlater)
      · exact hprefix (List.isPrefixOf_iff_prefix.mpr hhere)
      · exact ih (Option.map_eq_none_iff.mp h) hlater

/-- A comment that starts behind a gap is not closed, or it would be a part of the gap. -/
theorem stuck_of_opensComment (h : triviaPiece cs = none) (hopen : opensComment cs = true) :
    Stuck m .openComment cs := by
  unfold opensComment at hopen
  split at hopen
  · rename_i cs
    rw [triviaPiece, Option.or_eq_none_iff, Option.or_eq_none_iff] at h
    exact .openComment (takeThrough_eq_none (by simp) (Option.map_eq_none_iff.mp h.2.2))
  · cases hopen

theorem orCause_eq_error {cause' : Cause} {o : Option Lexeme}
    (h : orCause cause o = .error cause') : o = none ∧ cause' = cause := by
  cases o <;> cases h
  exact ⟨rfl, rfl⟩

/-- **What is said of a text without a token.** -/
theorem scan_stuck (hne : cs ≠ []) (h : scan m cs = .error cause) : Stuck m cause cs := by
  obtain ⟨c, cs, rfl⟩ := List.exists_cons_of_ne_nil hne
  cases m with
  | command =>
    obtain ⟨-, rfl⟩ := orCause_eq_error h
    exact .unexpected h
  | expression =>
    have hscan := h
    rw [scan] at h
    split at h
    · rename_i hquote
      obtain rfl := Option.some.inj hquote
      obtain ⟨hnone, rfl⟩ := orCause_eq_error h
      exact .openString rfl (Option.map_eq_none_iff.mp hnone)
    split at h
    · rename_i htick
      obtain rfl := Option.some.inj htick
      obtain ⟨hnone, rfl⟩ := orCause_eq_error h
      exact .openName (.inl rfl) (Option.map_eq_none_iff.mp hnone)
    · obtain ⟨-, rfl⟩ := orCause_eq_error h
      exact .unexpected hscan
  | source =>
    have hscan := h
    rw [scan] at h
    split at h
    · rename_i htick
      obtain rfl := Option.some.inj htick
      obtain ⟨hnone, rfl⟩ := orCause_eq_error h
      exact .openName (.inr rfl) (Option.map_eq_none_iff.mp hnone)
    · obtain ⟨-, rfl⟩ := orCause_eq_error h
      exact .unexpected hscan

/-- How lexing a text ends in an error: no token can be read behind a gap, or one can, and the error
is behind it. -/
inductive Fails : Modes → Position → List Char → Error → Prop
  | stuck {modes : Modes} {p : Position} {cs gap rest : List Char} {cause : Cause}
    (hgap : trivia cs = (gap, rest)) (h : Stuck modes.current cause rest) :
    Fails modes p cs ⟨cause, p.after gap⟩
  | token {modes : Modes} {p : Position} {cs gap rest : List Char} {l : Lexeme} {e : Error}
    (hgap : trivia cs = (gap, rest)) (hopen : opensComment rest = false)
    (hscan : scan modes.current rest = .ok l)
    (h : Fails (modes.next l.kind) ((p.after gap).after l.text) l.rest e) : Fails modes p cs e

theorem fails_of_tokensFrom (h : tokensFrom modes p cs = .error e) : Fails modes p cs e := by
  induction modes, p, cs using tokensFrom.induct with
  | case1 modes p cs gap rest hgap hopen =>
    rw [tokensFrom_openComment hgap hopen] at h
    cases h
    exact .stuck hgap (stuck_of_opensComment (triviaPiece_of_trivia hgap) hopen)
  | case2 modes p cs gap rest hgap _ hrest =>
    obtain rfl := List.isEmpty_iff.mp hrest
    rw [tokensFrom_end hgap] at h
    cases h
  | case3 modes p cs gap rest hgap hopen hrest cause hscan =>
    have hne : rest ≠ [] := by simpa using hrest
    rw [tokensFrom_stuck hgap (by simpa using hopen) hne hscan] at h
    cases h
    exact .stuck hgap (scan_stuck hne hscan)
  | case4 modes p cs gap rest hgap _ hopen hrest l hscan =>
    rename_i ih
    have hopen : opensComment rest = false := by simpa using hopen
    rw [tokensFrom_token hgap hopen hscan] at h
    exact .token hgap hopen hscan (ih (error_of_map_error h))

section Prefix

variable {gap : List Char} {l : Lexeme}

/-- A gap alone has no tokens. -/
theorem tokensFrom_gap (hgap : trivia cs = (gap, rest)) :
    tokensFrom modes p gap = .ok [.eof (.between (p.after gap) (p.after gap))] := by
  have hprefix := trivia_cutOff cs List.nil_prefix
  rw [hgap, List.append_nil] at hprefix
  exact tokensFrom_end hprefix

/-- The first token of a text stays the first when the text is cut off somewhere behind it. -/
theorem tokensFrom_cutOff (hgap : trivia cs = (gap, rest)) (hopen : opensComment rest = false)
    (hscan : scan modes.current rest = .ok l) {before : List Char} (hbefore : before <+: l.rest) :
    tokensFrom modes p (gap ++ (l.text ++ before)) =
      (tokensFrom (modes.next l.kind) ((p.after gap).after l.text) before).map
        (l.token (p.after gap) :: ·) := by
  obtain ⟨htext, hne⟩ := scan_starts hscan
  have hgapless : Gapless (l.text ++ l.rest) := htext ▸ gapless_of_trivia hgap hopen
  have hgap' : trivia (gap ++ (l.text ++ before)) = (gap, l.text ++ before) := by
    have hprefix := (List.prefix_append_right_inj l.text).mpr hbefore
    have htrivia := trivia_cutOff cs (by rwa [hgap, ← htext] : l.text ++ before <+: (trivia cs).2)
    rwa [hgap] at htrivia
  exact tokensFrom_token hgap' (gapless_iff.mp (hgapless.replace hne (.inl hbefore))).2
    (scan_stable hscan (.inl hbefore))

end Prefix

/-- **The text before an error is lexed to its end**, which is the place of the error, and behind it
no token can be read. -/
theorem tokensFrom_error (h : tokensFrom modes p cs = .error e) :
    ∃ before rest ts, cs = before ++ rest ∧ rest ≠ [] ∧ e.position = p.after before ∧
      tokensFrom modes p before = .ok (ts ++ [.eof (.between e.position e.position)]) ∧
      (∀ t ∈ ts, t.kind ≠ .endOfInput) ∧
      Stuck (modes.after (ts.map Token.kind)).current e.cause rest := by
  replace h := fails_of_tokensFrom h
  induction h with
  | @stuck modes p cs gap rest cause hgap hstuck =>
    obtain ⟨c, behind, rfl, -⟩ := hstuck.head
    exact ⟨gap, c :: behind, [], (append_of_trivia hgap).symm, List.cons_ne_nil c behind, rfl,
      tokensFrom_gap hgap, by simp, hstuck⟩
  | @token modes p cs gap rest l e hgap hopen hscan _ ih =>
    -- The error stands behind the first token, and cutting the text there leaves the token.
    obtain ⟨before, behind, ts, hrest, hne, hposition, hts, hkinds, hstuck⟩ := ih
    have happend := append_of_trivia hgap
    rw [← (scan_starts hscan).1, hrest] at happend
    refine ⟨gap ++ (l.text ++ before), behind, l.token (p.after gap) :: ts,
      ?_, hne, ?_, ?_, ?_, hstuck⟩
    · rw [← happend, List.append_assoc, List.append_assoc]
    · rw [hposition, Position.after_append, Position.after_append]
    · rw [tokensFrom_cutOff hgap hopen hscan ⟨behind, hrest.symm⟩, hts]
      rfl
    · exact List.forall_mem_cons.mpr ⟨scan_kind_ne hscan, hkinds⟩

end Lexer

open Lexer

/-- **An error points at the first place that cannot be lexed.** If a source cannot be lexed, in
whatever mode it starts, the place of the error is between two of its characters and not at its end.
What stands before is lexed, and the token that marks its end has the place of the error; behind it,
in the mode that these tokens leave, something starts that is never closed, or stands the unexpected
character. -/
theorem tokenizeIn_error {m : Mode} {source : String} {e : Lexer.Error}
    (h : tokenizeIn m source = .error e) :
    ∃ before rest ts, source.toList = before ++ rest ∧
      e.position.offset < source.utf8ByteSize ∧
      slice? source.toList 0 e.position.offset = some before ∧
      tokenizeIn m (String.ofList before) = .ok (ts ++
        [.eof ⟨e.position.offset, e.position.offset, e.position.line, e.position.column⟩]) ∧
      (∀ t ∈ ts, t.kind ≠ .endOfInput) ∧
      Stuck ((Modes.start m).after (ts.map Token.kind)).current e.cause rest := by
  obtain ⟨before, rest, ts, hsource, hne, hposition, hts, hkinds, hstuck⟩ := tokensFrom_error h
  have hoffset : e.position.offset = utf8Length before := by
    rw [hposition, Position.offset_start_after]
  refine ⟨before, rest, ts, hsource, ?_, ?_, ?_, hkinds, hstuck⟩
  · obtain ⟨c, rest, rfl⟩ := List.exists_cons_of_ne_nil hne
    -- Something stands behind the place, and each character has a byte at least.
    have hpos := c.utf8Size_pos
    rw [utf8ByteSize_eq, hsource, utf8Length_append, utf8Length_cons, hoffset]
    omega
  · rw [hoffset, hsource]
    simpa using slice?_append [] before rest
  · rw [tokenizeIn, String.toList_ofList]
    exact hts

/-- Three quotes that no others close are read as an empty string and the start of another. Behind
them a comment is left open. -/
theorem tokenizeIn_error_openComment :
    let source := "where \"\"\"a\" /* b"
    let e : Lexer.Error := ⟨.openComment, ⟨12, 1, 13⟩⟩
    tokenizeIn .command source = .error e ∧
      ∃ before rest ts, source.toList = before ++ rest ∧
        e.position.offset < source.utf8ByteSize ∧
        slice? source.toList 0 e.position.offset = some before ∧
        tokenizeIn .command (String.ofList before) = .ok (ts ++ [.eof ⟨12, 12, 1, 13⟩]) ∧
        (∀ t ∈ ts, t.kind ≠ .endOfInput) ∧
        Stuck ((Modes.start .command).after (ts.map Token.kind)).current e.cause rest := by
  intro source e
  have h : tokenizeIn .command source = .error e := by decide +kernel
  exact ⟨h, tokenizeIn_error h⟩

end PipeQuery

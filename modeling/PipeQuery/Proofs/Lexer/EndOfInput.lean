import PipeQuery.Proofs.Lexer.TokenTexts
import PipeQuery.Token.Stream

/-!
# The end of the input

The lexer marks the end of a source behind its last character. A stream whose tokens come without
that mark adds it, at a place that it tells from the last token alone: its last byte, its line, and
its column moved on by its characters. This is the place behind the last token if the token stands
on one line, and only then.

## Main definitions

* `TokenStream.stopOf`: where the last of some tokens stops
* `Lexer.multiline`: the kinds of the tokens that may have line breaks

## Main results

* `Position.after_eq`: the place behind a text, by its bytes, line feeds and characters
* `Lexer.forall_not_isBlank`: tokens of the other kinds have no blanks
* `Lexer.Reads.ends`: the last tokens of a text
* `ofList_body_eq_iff`: where an added end of the input is the one of the lexer
-/

namespace PipeQuery

open Token (Kind)

/-! ## The place behind a text -/

theorem eq_nil_of_utf8Length {cs : List Char} (h : utf8Length cs = 0) : cs = [] := by
  cases cs with
  | nil => rfl
  | cons c cs =>
    have hpos := c.utf8Size_pos
    rw [utf8Length_cons] at h
    omega

/-- **The place behind a text** is on a line for each of its line feeds further down, and a column
for each character behind the last of them, or for all of them if there is none. -/
theorem Position.after_eq (p : Position) (cs : List Char) :
    p.after cs = ⟨p.offset + utf8Length cs, p.line + cs.count '\n',
      if '\n' ∈ cs then 1 + (cs.reverse.takeWhile (· ≠ '\n')).length
      else p.column + cs.length⟩ := by
  induction cs using List.reverseRecOn with
  | nil => simp
  | append_singleton cs c ih =>
    rw [after_concat, ih, next]
    by_cases hc : c = '\n'
    · subst hc
      simp [Nat.add_assoc]
    · have hmem : '\n' ∈ cs ++ [c] ↔ '\n' ∈ cs := by simp [Ne.symm hc]
      by_cases hline : '\n' ∈ cs <;> simp [hc, hmem, hline] <;> omega

namespace TokenStream

/-- The byte where the last of some tokens stops. If there are none, it is the first byte of all. -/
def stopOf (ts : List Token) : Nat := (ts.getLast?.map (·.span.stop)).getD 0

end TokenStream

namespace Lexer

variable {cs : List Char} {m : Mode} {modes : Modes} {p : Position} {ts : List Token} {l : Lexeme}

/-! ## Tokens with line breaks -/

/-- The kinds of the tokens that may have blanks, line breaks among them: those between marks. -/
def multiline : List Kind := [.string, .quotedName, .quotedSourceName]

theorem IsDigits.not_isBlank (h : IsDigits cs) : ∀ c ∈ cs, isBlank c = false :=
  fun c hc => not_isBlank_of_isDigit (h.2 c hc)

theorem IsFraction.not_isBlank {bare : Bool} (h : IsFraction bare cs) :
    ∀ c ∈ cs, isBlank c = false := by
  obtain ⟨ds, rfl, hds⟩ := h
  refine List.forall_mem_cons.mpr ⟨rfl, ?_⟩
  rcases hds with hds | ⟨-, rfl⟩
  · exact hds.not_isBlank
  · exact List.forall_mem_nil _

theorem IsExponent.not_isBlank (h : IsExponent cs) : ∀ c ∈ cs, isBlank c = false := by
  obtain ⟨c, sign, ds, rfl, ⟨hc, hsign⟩, hds⟩ := h
  rw [List.forall_mem_cons, List.forall_mem_append]
  refine ⟨?_, ?_, hds.not_isBlank⟩
  · rcases hc with rfl | rfl <;> decide
  · rcases hsign with rfl | rfl | rfl
    · exact List.forall_mem_nil _
    · exact List.forall_mem_singleton.mpr rfl
    · exact List.forall_mem_singleton.mpr rfl

theorem IsNumber.not_isBlank {bare : Bool} (h : IsNumber bare cs) :
    ∀ c ∈ cs, isBlank c = false := by
  obtain ⟨whole, fraction, exponent, rfl, hwhole, hfraction, hexponent⟩ := h
  rw [List.forall_mem_append, List.forall_mem_append]
  refine ⟨hwhole.not_isBlank, ?_, ?_⟩
  · rcases hfraction with rfl | hfraction
    · exact List.forall_mem_nil _
    · exact hfraction.not_isBlank
  · rcases hexponent with rfl | hexponent
    · exact List.forall_mem_nil _
    · exact hexponent.not_isBlank

theorem IsIdentifier.not_isBlank (h : IsIdentifier cs) : ∀ c ∈ cs, isBlank c = false := by
  obtain ⟨c, tail, rfl, hc, htail⟩ := h
  refine List.forall_mem_cons.mpr ⟨?_, fun d hd => ?_⟩
  · exact blankless_isNameStart.not_isBlank (isNameStart_iff.mpr hc)
  · exact blankless_isNamePart.not_isBlank (isNamePart_iff.mpr (htail d hd))

/-- **Only what stands between marks has blanks.** -/
theorem forall_not_isBlank (h : scan m cs = .ok l) (hk : l.kind ∉ multiline) :
    ∀ c ∈ l.text, isBlank c = false := by
  -- Words have no blanks by what they are made of, and the marks are looked through.
  have hword {excluded text : List Char} (hw : IsWord excluded text) :
      ∀ c ∈ text, isBlank c = false := fun c hc => (hw.2 c hc).1
  have hmark {marks text : List Char} (hmarks : marks.any isBlank = false)
      (ht : ∃ c ∈ marks, text = [c]) : ∀ c ∈ text, isBlank c = false := by
    obtain ⟨c, hc, rfl⟩ := ht
    exact List.forall_mem_singleton.mpr (by simpa using List.any_eq_false.mp hmarks c hc)
  cases found_of_scan h with
  | commandMark hf => exact hmark (by decide) (commandMark_text hf)
  | commandWord hf => exact hword (isWord_of_takeRun1 (fun _ => isCommandPart_iff.mp) hf)
  | string | quotedName | quotedSourceName => exact absurd (by simp [multiline, Cut.lexeme]) hk
  | number hf =>
    rcases number_isNumber hf with ⟨-, hdigits⟩ | ⟨-, hnumber, -⟩
    · exact hdigits.not_isBlank
    · exact hnumber.not_isBlank
  | identifier hf => exact (identifier_isIdentifier hf).not_isBlank
  | operator hf =>
    have hmarks : operators.flatten.any isBlank = false := by decide +kernel
    intro c hc
    simpa using List.any_eq_false.mp hmarks c (List.mem_flatten_of_mem (operator_mem hf) hc)
  | sourceMark hf => exact hmark (by decide) (sourceMark_text hf)
  | sourceWord hf => exact hword (isWord_of_takeRun1 (fun _ => isSourcePart_iff.mp) hf)

/-! ## The last tokens of a text -/

/-- **How a text ends.** Behind the text `past` that ends with the last token stands a gap, and the
end of the input behind it. -/
theorem Reads.ends (h : Reads modes p cs ts) :
    ∃ body past gap, ts = body ++ [.eof (.between (p.after cs) (p.after cs))] ∧
      cs = past ++ gap ∧ (∀ t ∈ body, t.isEof = false) ∧ (body = [] → past = []) ∧
      ∀ t ∈ body.getLast?, ∃ front, past = front ++ t.text.toList ∧
        t.span = .between (p.after front) (p.after past) ∧
        ('\n' ∈ t.text.toList → t.kind ∈ multiline) := by
  -- From the end of the text backwards: one more token in front moves all places by its gap and
  -- its text.
  induction h with
  | @last modes p cs gap hgap =>
    obtain rfl : gap = cs := by rw [← append_of_trivia hgap, List.append_nil]
    exact ⟨[], [], gap, rfl, rfl, by simp, fun _ => rfl, by simp⟩
  | @token modes p cs gap rest l ts hgap _ hscan _ ih =>
    obtain ⟨body, past, behind, rfl, hrest, hbody, hnil, hlast⟩ := ih
    have happend := append_of_trivia hgap
    rw [← (scan_starts hscan).1, hrest] at happend
    have hafter (ds : List Char) :
        ((p.after gap).after l.text).after ds = p.after (gap ++ (l.text ++ ds)) := by
      rw [Position.after_append, Position.after_append]
    refine ⟨l.token (p.after gap) :: body, gap ++ (l.text ++ past), behind, ?_, ?_, ?_, ?_, ?_⟩
    · rw [hafter, hrest, happend]
      rfl
    · rw [← happend, List.append_assoc, List.append_assoc]
    · refine List.forall_mem_cons.mpr ⟨?_, hbody⟩
      have hne : l.kind ≠ .endOfInput := scan_kind_ne hscan
      simpa [Token.isEof, Lexeme.token] using hne
    · intro hcons
      cases hcons
    · -- The last token is this one, or the last of those behind it.
      intro t ht
      by_cases hempty : body = []
      · rw [hempty] at ht
        obtain rfl : l.token (p.after gap) = t := Option.some.inj ht
        have hpast : gap ++ (l.text ++ past) = gap ++ l.text := by
          rw [hnil hempty, List.append_nil]
        rw [hpast, Lexeme.token, String.toList_ofList]
        refine ⟨gap, rfl, ?_, fun hline => ?_⟩
        · rw [Position.after_append]
        · by_contra hk
          exact absurd (forall_not_isBlank hscan hk _ hline) (by decide)
      · rw [List.getLast?_cons_of_ne_nil hempty] at ht
        obtain ⟨front, hfront, hspan, hkind⟩ := hlast t ht
        refine ⟨gap ++ (l.text ++ front), ?_, ?_, hkind⟩
        · rw [hfront, List.append_assoc, List.append_assoc]
        · rw [hspan, hafter, hafter]

end Lexer

open TokenStream Lexer

/-- Behind no token the added end of the input stands at the start, which is the end of the empty
text. -/
theorem eof_start_eq_iff {cs : List Char} :
    Token.eof (spanBehind none) = .eof (.between (.after .start cs) (.after .start cs)) ↔
      0 = utf8Length cs := by
  constructor
  · intro heq
    rw [← Position.offset_start_after]
    exact congrArg (fun t => t.span.start) heq
  · intro hlength
    rw [eq_nil_of_utf8Length hlength.symm]
    rfl

section Last

variable {front gap : List Char} {last : Token}

/-- Where nothing stands behind a last token, the place behind it is told from the token. -/
theorem after_last
    (hspan : last.span = .between (.after .start front)
      (.after .start (front ++ last.text.toList)))
    (hstop : last.span.stop = utf8Length (front ++ last.text.toList ++ gap)) :
    Position.start.after (front ++ last.text.toList ++ gap) = ⟨last.span.stop,
      last.span.line + last.text.toList.count '\n',
      if '\n' ∈ last.text.toList then
        1 + (last.text.toList.reverse.takeWhile (· ≠ '\n')).length
      else last.span.column + last.text.length⟩ := by
  have hoffset : last.span.stop = utf8Length (front ++ last.text.toList) := by
    rw [hspan]
    exact Position.offset_start_after _
  -- As many bytes stand before the end as before the end of the token, so the gap has none.
  have hgap : gap = [] := by
    rw [hoffset, utf8Length_append _ gap] at hstop
    exact eq_nil_of_utf8Length (by omega)
  have hbytes : last.span.stop =
      (Position.start.after front).offset + utf8Length last.text.toList := by
    rw [hoffset, utf8Length_append, Position.offset_start_after]
  have hline : last.span.line = (Position.start.after front).line := by rw [hspan]; rfl
  have hcolumn : last.span.column = (Position.start.after front).column := by rw [hspan]; rfl
  rw [hgap, List.append_nil, Position.after_append, Position.after_eq, hbytes, hline, hcolumn,
    String.length_toList]

/-- Behind a last token the added end of the input stands where the text ends, if nothing stands
behind the token and no line feed in it. -/
theorem eof_last_eq_iff
    (hspan : last.span = .between (.after .start front)
      (.after .start (front ++ last.text.toList))) :
    Token.eof (spanBehind (some last)) =
        .eof (.between (.after .start (front ++ last.text.toList ++ gap))
          (.after .start (front ++ last.text.toList ++ gap))) ↔
      last.span.stop = utf8Length (front ++ last.text.toList ++ gap) ∧
        '\n' ∉ last.text.toList := by
  constructor
  · intro heq
    have hstop : last.span.stop = utf8Length (front ++ last.text.toList ++ gap) := by
      rw [← Position.offset_start_after]
      exact congrArg (fun t => t.span.start) heq
    have hlines : last.span.line =
        (Position.start.after (front ++ last.text.toList ++ gap)).line :=
      congrArg (fun t => t.span.line) heq
    rw [after_last hspan hstop] at hlines
    exact ⟨hstop, List.count_eq_zero.mp (Nat.left_eq_add.mp hlines)⟩
  · rintro ⟨hstop, hline⟩
    rw [after_last hspan hstop, if_neg hline, List.count_eq_zero.mpr hline]
    rfl

end Last

/-- **An end of the input that a stream adds.** When the tokens of a source are put into a stream
without the end of the input, the stream has the same tokens as with it, places included, if and
only if nothing stands behind the last token and no line feed in it. Where nothing stands behind
the last token, the bytes always agree; the added end has the line of the last token, and its column
moved on by the characters of the token, while the lexer moves down a line for each line feed and
counts the characters behind the last of them. Only a token between marks can have line feeds. -/
theorem ofList_body_eq_iff {m : Mode} {source : String} {tokens : List Token}
    (h : tokenizeIn m source = .ok tokens) :
    (ofList (body tokens) = ofList tokens ↔ stopOf (body tokens) = source.utf8ByteSize ∧
      ∀ last ∈ (body tokens).getLast?, '\n' ∉ last.text.toList) ∧
    ∀ last ∈ (body tokens).getLast?, last.span.stop = source.utf8ByteSize →
      closing (body tokens) = .eof ⟨last.span.stop, last.span.stop, last.span.line,
        last.span.column + last.text.length⟩ ∧
      closing tokens = .eof ⟨last.span.stop, last.span.stop,
        last.span.line + last.text.toList.count '\n',
        if '\n' ∈ last.text.toList then
          1 + (last.text.toList.reverse.takeWhile (· ≠ '\n')).length
        else last.span.column + last.text.length⟩ ∧
      ('\n' ∈ last.text.toList → last.kind ∈ multiline) := by
  obtain ⟨ts, past, gap, rfl, hsource, hts, -, hlast⟩ := (reads_of_tokensFrom h).ends
  rw [body_concat hts rfl, ofList_eq_iff (by rw [body_eq hts, body_concat hts rfl]),
    closing_concat hts rfl, closing_eq hts]
  rw [utf8ByteSize_eq, hsource]
  refine ⟨?_, fun last hmem hstop => ?_⟩
  · cases hl : ts.getLast? with
    | none =>
      -- Without a last token the added end stands at the start of the text.
      rw [eof_start_eq_iff, stopOf, hl]
      exact ⟨fun hempty => ⟨hempty, by simp⟩, And.left⟩
    | some last =>
      obtain ⟨front, rfl, hspan, -⟩ := hlast last hl
      rw [eof_last_eq_iff hspan, stopOf, hl]
      simp
  · obtain ⟨front, rfl, hspan, hkind⟩ := hlast last hmem
    refine ⟨?_, ?_, hkind⟩
    · rw [Option.mem_def.mp hmem]
      rfl
    · rw [after_last hspan hstop]
      rfl

/-- A source that ends with a name of two lines. -/
theorem ofList_body_eq_iff_quotedName :
    let tokens : List Token := [⟨.rowCmd, "row", ⟨0, 3, 1, 1⟩⟩,
      ⟨.quotedName, "\x60a\nbc\x60", ⟨4, 10, 1, 5⟩⟩, .eof ⟨10, 10, 2, 4⟩]
    tokenizeIn .command "row \x60a\nbc\x60" = .ok tokens ∧
      closing (body tokens) = .eof ⟨10, 10, 1, 11⟩ ∧ closing tokens = .eof ⟨10, 10, 2, 4⟩ ∧
      ofList (body tokens) ≠ ofList tokens := by
  intro tokens
  have h : tokenizeIn .command "row \x60a\nbc\x60" = .ok tokens := by decide +kernel
  obtain ⟨hiff, hends⟩ := ofList_body_eq_iff h
  obtain ⟨hadded, hlexed, -⟩ := hends ⟨.quotedName, "\x60a\nbc\x60", ⟨4, 10, 1, 5⟩⟩
    (by decide +kernel) (by decide +kernel)
  refine ⟨h, hadded, hlexed, fun heq => ?_⟩
  have hline := (hiff.mp heq).2 _ (by decide +kernel :
    (⟨.quotedName, "\x60a\nbc\x60", ⟨4, 10, 1, 5⟩⟩ : Token) ∈ (body tokens).getLast?)
  revert hline
  decide +kernel

/-- A string of two lines ends on the second of them, and the added end of the input stands on the
first. -/
theorem added_end_off :
    ¬ ∀ (m : Mode) (source : String) (tokens : List Token), tokenizeIn m source = .ok tokens →
      stopOf (body tokens) = source.utf8ByteSize → ofList (body tokens) = ofList tokens := by
  intro h
  let tokens : List Token := [⟨.rowCmd, "row", ⟨0, 3, 1, 1⟩⟩,
    ⟨.string, "\"\"\"a\nb\"\"\"", ⟨4, 13, 1, 5⟩⟩, .eof ⟨13, 13, 2, 5⟩]
  have hlexed : tokenizeIn .command "row \"\"\"a\nb\"\"\"" = .ok tokens := by decide +kernel
  have heq := h _ _ _ hlexed (by decide +kernel)
  revert heq
  decide +kernel

end PipeQuery

import PipeQuery.Proofs.Lexer.Stability
import PipeQuery.Text.Quoted

/-!
# Quoted names and strings read back

The lexer looks for the end of a quoted text from its left, and the reader of values strips the
marks from both of its ends. The two agree: a quoted text is a single token, and the text that is
meant by it is the one that was quoted. The other way round, a name that the lexer takes for a
quoted one is the quoting of what it means, and a bare name means itself.

## Main definitions

* `Lexer.alone`: the tokens of a source that is a single token
* `Lexer.NameWritten`: how the names of each kind are written

## Main results

* `Lexer.stringTail_escape`, `Lexer.takeThrough_append_mark`, `Lexer.quotedNameTail_double`: where a
  quoted text ends
* `Lexer.scan_nameWritten`, `Lexer.Reads.nameWritten`: how tokens are written
* `string_readsBack`: strings in either kind of quotes read back
* `name_readsBack`: quoted names read back, and names are written as quoting writes them
-/

namespace PipeQuery

open Quoted
open Token (Kind)

namespace Lexer

variable {cs rest : List Char} {cut : Cut} {l : Lexeme}

/-! ## Sources of a single token -/

/-- The tokens of a source that is a single token: that token, and the end of the input. -/
def alone (kind : Kind) (text : String) : List Token :=
  [⟨kind, text, .between .start (.after .start text.toList)⟩,
    .eof (.between (.after .start text.toList) (.after .start text.toList))]

theorem tokenizeIn_eq_alone {m : Mode} {kind : Kind} {text : String} (hgap : Gapless text.toList)
    (hscan : scan m text.toList = .ok ⟨kind, text.toList, []⟩) :
    tokenizeIn m text = .ok (alone kind text) := by
  have hnil : trivia [] = ([], []) := trivia_of_none rfl
  rw [tokenizeIn, tokensFrom_token hgap.trivia_eq (gapless_iff.mp hgap).2 hscan,
    tokensFrom_end hnil]
  simp [alone, Lexeme.token, Except.map]

/-- No gap starts at a quote. -/
theorem gapless_of_quote {c : Char} (hc : c = '"' ∨ c = '\x60') (cs : List Char) :
    Gapless (c :: cs) := by
  rcases hc with rfl | rfl <;> simp [Gapless, isLayout]

/-! ## Strings -/

/-- An escaped character is taken as part of the string. -/
theorem stringTail_escapeChar (c : Char) (cs : List Char) :
    stringTail (escapeChar c ++ cs) = (stringTail cs).map (Cut.behind (escapeChar c)) := by
  obtain ⟨d, hescape, -⟩ | ⟨hplain, hbackslash, hquote, hline⟩ := escapeChar_cases c
  · rw [hescape]
    rfl
  · rw [hplain]
    exact stringTail_cons hquote hbackslash hline.symm

/-- A string ends behind the escaped text. -/
theorem stringTail_escape (cs rest : List Char) :
    stringTail (escape cs ++ '"' :: rest) = some (escape cs ++ ['"'], rest) := by
  induction cs with
  | nil => rfl
  | cons c cs ih =>
    rw [escape, List.flatMap_cons, List.append_assoc, stringTail_escapeChar]
    show (stringTail (escape cs ++ _)).map _ = _
    rw [ih]
    simp [Cut.behind, escape]

theorem escapeChar_eq_cons (c : Char) : ∃ d ds, escapeChar c = d :: ds ∧ d ≠ '"' := by
  obtain ⟨d, hescape, -⟩ | ⟨hplain, -, hquote, -⟩ := escapeChar_cases c
  · exact ⟨'\\', [d], hescape, by decide⟩
  · exact ⟨c, [], hplain, hquote⟩

/-- The opening quote of a string with escapes does not stand in a triple of quotes. -/
theorem not_quotes_starts_escape (cs : List Char) :
    ¬ ['"', '"', '"'] <+: mark ['"'] (escape cs) := by
  cases cs with
  | nil => simp [mark, escape]
  | cons c cs =>
    obtain ⟨d, ds, hc, hd⟩ := escapeChar_eq_cons c
    simp [mark, escape, hc, hd.symm]

theorem stringLiteral_escape (cs : List Char) :
    stringLiteral (mark ['"'] (escape cs)) = some (mark ['"'] (escape cs), []) := by
  have htriple : tripleQuoted (mark ['"'] (escape cs)) = none := by
    by_contra hsome
    obtain ⟨cut, hcut⟩ := Option.ne_none_iff_exists'.mp hsome
    exact not_quotes_starts_escape cs (tripleQuoted_starts hcut)
  rw [stringLiteral, htriple, Option.none_or]
  show (stringTail (escape cs ++ ['"'])).map _ = _
  rw [stringTail_escape]
  rfl

/-- Text is taken through a mark when the mark does not occur earlier, not even in part in the text
and in part in the mark itself. -/
theorem takeThrough_append_mark {mark body : List Char} (hmark : mark ≠ [])
    (hfirst : ¬ mark <:+: body ++ mark.dropLast) (rest : List Char) :
    takeThrough mark (body ++ mark ++ rest) = some (body ++ mark, rest) := by
  induction body with
  | nil =>
    obtain ⟨c, mark, rfl⟩ := List.exists_cons_of_ne_nil hmark
    rw [List.nil_append, List.cons_append, takeThrough, if_pos (by simp)]
    simp
  | cons c body ih =>
    rw [List.cons_append, List.infix_cons_iff, not_or] at hfirst
    have hnot : ¬ mark.isPrefixOf (c :: (body ++ mark ++ rest)) = true := by
      rw [List.isPrefixOf_iff_prefix]
      intro hp
      -- The mark would end before its own end behind the text.
      have hshort : body ++ mark.dropLast <+: body ++ mark ++ rest := by
        rw [List.append_assoc, List.prefix_append_right_inj]
        exact (List.dropLast_prefix mark).trans (List.prefix_append mark rest)
      have hlength : mark.length ≤ (c :: (body ++ mark.dropLast)).length := by
        simp only [List.length_cons, List.length_append, List.length_dropLast]
        omega
      exact hfirst.1 (List.prefix_of_prefix_length_le hp
        ((List.prefix_cons_inj c).mpr hshort) hlength)
    show takeThrough mark (c :: (body ++ mark ++ rest)) = _
    rw [takeThrough, if_neg hnot, ih hfirst.2]
    rfl

/-- A text without a triple of quotes, and without a quote at its end, has no triple of quotes in
it when two more quotes stand behind it. -/
theorem not_infix_append_quotes (h : ¬ ['"', '"', '"'] <:+: cs) (hlast : cs.getLast? ≠ some '"') :
    ¬ ['"', '"', '"'] <:+: cs ++ ['"', '"'] := by
  have hquote : ¬ ['"'] <:+ cs := by
    rintro ⟨body, rfl⟩
    exact hlast (by simp)
  intro hinfix
  have hinfix : ['"', '"', '"'] <:+: cs ++ ['"'] ++ ['"'] := by simpa using hinfix
  rw [List.infix_concat_iff, List.infix_concat_iff] at hinfix
  rcases hinfix with hends | hends | hinfix
  · have hends : ['"'] ++ ['"', '"'] <:+ cs ++ ['"', '"'] := by rwa [List.append_assoc] at hends
    exact hquote (List.suffix_append_self_iff.mp hends)
  · have hends : ['"', '"'] ++ ['"'] <:+ cs ++ ['"'] := hends
    exact hquote (.trans ⟨['"'], rfl⟩ (List.suffix_append_self_iff.mp hends))
  · exact h hinfix

theorem stringLiteral_raw (h : ¬ ['"', '"', '"'] <:+: cs) (hlast : cs.getLast? ≠ some '"') :
    stringLiteral (mark ['"', '"', '"'] cs) = some (mark ['"', '"', '"'] cs, []) := by
  have hfirst := not_infix_append_quotes h hlast
  have hthrough := takeThrough_append_mark (List.cons_ne_nil _ _) hfirst []
  rw [List.append_nil] at hthrough
  rw [stringLiteral]
  show ((takeThrough ['"', '"', '"'] (cs ++ ['"', '"', '"'])).map _).or _ = _
  rw [hthrough]
  rfl

/-! ## Names -/

/-- A name ends behind the text with its backticks doubled, unless one more backtick follows. -/
theorem quotedNameTail_double (h : ∀ c ∈ rest.head?, (c == '\x60') = false) (cs : List Char) :
    quotedNameTail (double cs ++ '\x60' :: rest) = some (double cs ++ ['\x60'], rest) := by
  induction cs with
  | nil => exact quotedNameTail_close h
  | cons c cs ih =>
    rw [double]
    by_cases hc : c = '\x60'
    · rw [if_pos hc]
      show (quotedNameTail (double cs ++ _)).map _ = _
      rw [ih]
      rfl
    · rw [if_neg hc]
      show quotedNameTail (c :: (double cs ++ _)) = _
      rw [quotedNameTail_cons hc, ih]
      rfl

/-- What is taken as the rest of a name is a text with its backticks doubled, and one more. -/
theorem exists_double_of_quotedNameTail (h : quotedNameTail cs = some cut) :
    ∃ body, cut.1 = double body ++ ['\x60'] := by
  fun_induction quotedNameTail cs generalizing cut with
  | case1 => cases h
  | case2 cs ih =>
    obtain ⟨inner, hinner, rfl⟩ := Option.map_eq_some_iff.mp h
    obtain ⟨body, hbody⟩ := ih hinner
    exact ⟨'\x60' :: body, by simp [Cut.behind, double, hbody]⟩
  | case3 =>
    cases h
    exact ⟨[], rfl⟩
  | case4 c cs _ hc ih =>
    obtain ⟨inner, hinner, rfl⟩ := Option.map_eq_some_iff.mp h
    obtain ⟨body, hbody⟩ := ih hinner
    exact ⟨c :: body, by simp [Cut.behind, double, hc, hbody]⟩

theorem quotedName_double (cs : List Char) :
    quotedName (mark ['\x60'] (double cs)) = some (mark ['\x60'] (double cs), []) := by
  show (quotedNameTail (double cs ++ ['\x60'])).map _ = _
  rw [quotedNameTail_double (by simp)]
  rfl

theorem exists_double_of_quotedName (h : quotedName cs = some cut) :
    ∃ body, cut.1 = mark ['\x60'] (double body) := by
  unfold quotedName at h
  split at h
  · obtain ⟨inner, hinner, rfl⟩ := Option.map_eq_some_iff.mp h
    obtain ⟨body, hbody⟩ := exists_double_of_quotedNameTail hinner
    exact ⟨body, by simp [Cut.behind, mark, hbody]⟩
  · cases h

/-- How the names of a kind are written: quoted ones in backticks, with their own backticks doubled,
and bare ones without a backtick at their start. -/
def NameWritten (kind : Kind) (text : List Char) : Prop :=
  match kind with
  | .quotedName | .quotedSourceName => ∃ cs, text = mark ['\x60'] (double cs)
  | .name | .sourceName => text.head? ≠ some '\x60'
  | _ => True

/-- A word is a keyword of a list, or a word of another kind. -/
theorem nameWritten_keyword {ks : List Kind} {k : Kind} {word text : List Char}
    (hks : ∀ k ∈ ks, NameWritten k text) (hk : NameWritten k text) :
    NameWritten ((keyword? ks word).getD k) text := by
  cases h : keyword? ks word with
  | none => exact hk
  | some k' => exact hks k' (keyword?_mem h)

theorem nameWritten_mark (h : commandMark cs = some l ∨ sourceMark cs = some l ∨
    operator cs = some l) : NameWritten l.kind l.text := by
  rcases h with h | h | h
  · unfold commandMark at h
    split at h <;> cases h <;> trivial
  · unfold sourceMark at h
    split at h <;> cases h <;> trivial
  · unfold operator at h
    split at h <;> cases h <;> trivial

theorem nameWritten_number (h : number cs = some l) : NameWritten l.kind l.text := by
  obtain ⟨cut, -, rfl⟩ := Option.map_eq_some_iff.mp h
  unfold numberAfter
  split
  · trivial
  · split <;> trivial

theorem nameWritten_identifier {cut : Cut} (h : identifier cs = some cut) :
    NameWritten ((expressionKeyword? cut.1).getD .name) cut.1 := by
  obtain ⟨c, tail, rfl, hc, rfl⟩ := identifier_inv h
  refine nameWritten_keyword (by simp [NameWritten]) ?_
  -- A backtick starts no bare name.
  rintro ⟨⟩
  cases hc

theorem nameWritten_sourceWord {cut : Cut} (h : takeRun1 isSourcePart cs = some cut) :
    NameWritten .sourceName cut.1 := by
  obtain ⟨-, -, hall, -⟩ := takeRun1_eq_some_iff.mp h
  intro hhead
  have hpart := hall '\x60' (List.mem_of_head? hhead)
  revert hpart
  decide

/-- **The first token of a text is written as names of its kind are.** -/
theorem scan_nameWritten {m : Mode} (h : scan m cs = .ok l) : NameWritten l.kind l.text := by
  cases found_of_scan h with
  | commandMark hf => exact nameWritten_mark (.inl hf)
  | commandWord => exact nameWritten_keyword (by simp [NameWritten]) trivial
  | string => trivial
  | quotedName hf | quotedSourceName hf => exact exists_double_of_quotedName hf
  | number hf => exact nameWritten_number hf
  | identifier hf => exact nameWritten_identifier hf
  | operator hf => exact nameWritten_mark (.inr (.inr hf))
  | sourceMark hf => exact nameWritten_mark (.inr (.inl hf))
  | sourceWord hf => exact nameWritten_sourceWord hf

/-- The tokens of a text are written as names of their kinds are. -/
theorem Reads.nameWritten {modes : Modes} {p : Position} {ts : List Token}
    (h : Reads modes p cs ts) : ∀ t ∈ ts, NameWritten t.kind t.text.toList := by
  induction h with
  | last =>
    rw [List.forall_mem_singleton]
    trivial
  | @token _ _ _ _ _ l _ _ _ hscan _ ih =>
    rw [List.forall_mem_cons]
    refine ⟨?_, ih⟩
    rw [Lexeme.token, String.toList_ofList]
    exact scan_nameWritten hscan

end Lexer

open Lexer

theorem unquoteString_quoteString (s : String) : unquoteString (quoteString s) = s := by
  have htriple : unmark? ['"', '"', '"'] (mark ['"'] (escape s.toList)) = none := by
    have hnot := not_quotes_starts_escape s.toList
    rw [← List.isPrefixOf_iff_prefix] at hnot
    simp [unmark?, hnot]
  simp [unquoteString, quoteString, htriple, unmark?_mark, unescape_escape]

/-- A source that is read as a string literal is a single token. -/
theorem tokenizeIn_of_stringLiteral {s : String} {cs : List Char} (hs : s.toList = '"' :: cs)
    (h : stringLiteral s.toList = some (s.toList, [])) :
    tokenizeIn .expression s = .ok (alone .string s) := by
  apply tokenizeIn_eq_alone
  · rw [hs]
    exact gapless_of_quote (.inl rfl) cs
  · rw [scan, if_pos (by rw [hs]; rfl), h]
    rfl

theorem tokenizeIn_quoteString (s : String) :
    tokenizeIn .expression (quoteString s) = .ok (alone .string (quoteString s)) := by
  apply tokenizeIn_of_stringLiteral
  · exact String.toList_ofList
  · rw [quoteString, String.toList_ofList]
    exact stringLiteral_escape s.toList

theorem tokenizeIn_quoteRaw {s : String} (h : ¬ ['"', '"', '"'] <:+: s.toList)
    (hlast : s.toList.getLast? ≠ some '"') :
    tokenizeIn .expression (quoteRaw s) = .ok (alone .string (quoteRaw s)) := by
  apply tokenizeIn_of_stringLiteral
  · exact String.toList_ofList
  · rw [quoteRaw, String.toList_ofList]
    exact stringLiteral_raw h hlast

/-- **Strings read back.** In an expression, a text in double quotes, with its special characters
escaped, is read as a single string token, and the token means the text. So is a text between
triples of double quotes, if it has no three quotes in a row and does not end with one. -/
theorem string_readsBack (s : String) :
    (tokenizeIn .expression (quoteString s) = .ok (alone .string (quoteString s)) ∧
      unquoteString (quoteString s) = s) ∧
    (¬ ['"', '"', '"'] <:+: s.toList → s.toList.getLast? ≠ some '"' →
      tokenizeIn .expression (quoteRaw s) = .ok (alone .string (quoteRaw s)) ∧
        unquoteString (quoteRaw s) = s) :=
  ⟨⟨tokenizeIn_quoteString s, unquoteString_quoteString s⟩,
    fun h hlast => ⟨tokenizeIn_quoteRaw h hlast, unquoteString_quoteRaw s⟩⟩

/-- Two quotes in a row, a line break and a backslash at the end, in both kinds of quotes. -/
theorem string_readsBack_mixed :
    let s := "\"\"\n\\"
    (¬ ['"', '"', '"'] <:+: s.toList ∧ s.toList.getLast? ≠ some '"') ∧
      tokenizeIn .expression (quoteString s) = .ok (alone .string (quoteString s)) ∧
      tokenizeIn .expression (quoteRaw s) = .ok (alone .string (quoteRaw s)) ∧
      unquoteString (quoteRaw s) = s := by
  intro s
  have htriple : ¬ ['"', '"', '"'] <:+: s.toList := by decide
  have hlast : s.toList.getLast? ≠ some '"' := by decide
  exact ⟨⟨htriple, hlast⟩, (string_readsBack s).1.1, (string_readsBack s).2 htriple hlast⟩

/-- A text without a backtick at its start means itself. -/
theorem unquoteName_of_head?_ne {text : String} (h : text.toList.head? ≠ some '\x60') :
    unquoteName text = text := by
  have hunmark : unmark? ['\x60'] text.toList = none := by
    cases hcs : text.toList with
    | nil => rfl
    | cons c cs =>
      rw [hcs] at h
      have hc : '\x60' ≠ c := fun he => h (by rw [he]; rfl)
      simp [unmark?, hc]
  rw [unquoteName, hunmark]

/-- A quoted name in the mode `m` is a single token. -/
theorem tokenizeIn_quoteName {m : Mode} {kind : Kind} (s : String)
    (hscan : ∀ cs, scan m ('\x60' :: cs) =
      orCause .openName ((quotedName ('\x60' :: cs)).map (Cut.lexeme kind))) :
    tokenizeIn m (quoteName s) = .ok (alone kind (quoteName s)) := by
  apply tokenizeIn_eq_alone
  · rw [quoteName, String.toList_ofList]
    exact gapless_of_quote (.inr rfl) _
  · rw [quoteName, String.toList_ofList]
    refine (hscan _).trans ?_
    exact congrArg (fun cut => orCause .openName (cut.map (Cut.lexeme kind)))
      (quotedName_double s.toList)

/-- **Names read back.** A text in backticks, with its own backticks doubled, is read as a single
token for a quoted name, in an expression as in a list of sources, and the token means the text.
Whatever the source and the mode, the text of a quoted name is the quoting of what it means, and a
bare name means its own text. -/
theorem name_readsBack :
    (∀ s, tokenizeIn .expression (quoteName s) = .ok (alone .quotedName (quoteName s)) ∧
      tokenizeIn .source (quoteName s) = .ok (alone .quotedSourceName (quoteName s)) ∧
      unquoteName (quoteName s) = s) ∧
    ∀ m source ts, tokenizeIn m source = .ok ts → ∀ t ∈ ts,
      (t.kind = .quotedName ∨ t.kind = .quotedSourceName →
        t.text = quoteName (unquoteName t.text)) ∧
      (t.kind = .name ∨ t.kind = .sourceName → unquoteName t.text = t.text) := by
  constructor
  · intro s
    exact ⟨tokenizeIn_quoteName s fun _ => rfl, tokenizeIn_quoteName s fun _ => rfl,
      unquoteName_quoteName s⟩
  · intro m source ts h t ht
    have hwritten := (reads_of_tokensFrom h).nameWritten t ht
    constructor
    · intro hk
      have hquoted : ∃ cs, t.text.toList = mark ['\x60'] (double cs) := by
        rcases hk with hk | hk <;> rwa [hk] at hwritten
      obtain ⟨cs, hcs⟩ := hquoted
      have htext : t.text = quoteName (String.ofList cs) := by
        rw [quoteName, String.toList_ofList, ← hcs, String.ofList_toList]
      rw [htext, unquoteName_quoteName]
    · intro hk
      apply unquoteName_of_head?_ne
      rcases hk with hk | hk <;> rwa [hk] at hwritten

/-- A source with a quoted name, which has a backtick, and a bare one. -/
theorem name_readsBack_assignment :
    let quoted : Token := ⟨.quotedSourceName, "\x60a\x60\x60b\x60", ⟨0, 6, 1, 1⟩⟩
    let bare : Token := ⟨.sourceName, "c", ⟨9, 10, 1, 10⟩⟩
    tokenizeIn .source "\x60a\x60\x60b\x60 = c" =
        .ok [quoted, ⟨.assign, "=", ⟨7, 8, 1, 8⟩⟩, bare, .eof ⟨10, 10, 1, 11⟩] ∧
      quoted.text = quoteName (unquoteName quoted.text) ∧ unquoteName bare.text = bare.text := by
  intro quoted bare
  have hts : tokenizeIn .source "\x60a\x60\x60b\x60 = c" =
      .ok [quoted, ⟨.assign, "=", ⟨7, 8, 1, 8⟩⟩, bare, .eof ⟨10, 10, 1, 11⟩] := by decide +kernel
  have hread := name_readsBack.2 .source _ _ hts
  exact ⟨hts, (hread quoted (by simp)).1 (.inr rfl), (hread bare (by simp)).2 (.inr rfl)⟩

end PipeQuery

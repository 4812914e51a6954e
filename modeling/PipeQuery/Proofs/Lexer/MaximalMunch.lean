import Mathlib.Data.List.Nodup
import Mathlib.Data.Nat.Digits.Defs
import PipeQuery.Number.Literal
import PipeQuery.Proofs.Lexer.TokenTexts

/-!
# Maximal munch

In a source that is lexed, each token is the longest one that stands there in the mode in force, and
its kind is told by its text: a word is a keyword if the whole of it is one, letter case apart; a
number is a decimal one if it has a point or an exponent; and an integer has its value if it fits
into 64 bits.

A number may end with its point, and its exponent may follow the point. Where digits were required
behind a point, the lexer would take too much.

## Main definitions

* `Lexer.Mode.keywords`, `Lexer.SpelledAs`: the keywords of a mode and how they are written
* `Lexer.decimalValue`: the value of a row of digits
* `Lexer.KindFits`: how the text of a token tells its kind

## Main results

* `Lexer.Found.kindFits`: the kind of a token fits its text
* `Lexer.tokens_longest`: maximal munch
* `Lexer.bareNumber_not_longest`: a number may end with its point
-/

namespace PipeQuery.Lexer

open Token (Kind)

variable {m : Mode} {k : Kind} {ks : List Kind} {cs text : List Char} {l : Lexeme}

/-! ## Keywords -/

/-- The keywords of a mode. In a list of sources there are none. -/
def Mode.keywords : Mode → List Kind
  | .command => [.evalCmd, .explainCmd, .fromCmd, .rowCmd, .statsCmd, .whereCmd, .sortCmd,
    .limitCmd, .projectCmd]
  | .expression => [.byWord, .andWord, .ascWord, .descWord, .falseWord, .firstWord, .lastWord,
    .notWord, .nullWord, .nullsWord, .orWord, .trueWord]
  | .source => []

/-- The keywords of all modes. -/
def keywords : List Kind := Mode.keywords .command ++ Mode.keywords .expression

/-- The whole text is the spelling of the kind, letter case apart. -/
def SpelledAs (k : Kind) (text : List Char) : Prop :=
  ∃ word, k.spelling? = some word ∧ lower text = lower word.toList

/-- Keywords are spelled in lower case, and start with a letter. -/
theorem keyword_spelling {word : String} (hk : k ∈ keywords) (hword : k.spelling? = some word) :
    lower word.toList = word.toList ∧ ∃ c ∈ word.toList.head?, c.isAlpha = true := by
  have hall : (keywords.all fun k => k.spelling?.all fun word =>
      lower word.toList == word.toList && word.toList.head?.any Char.isAlpha) = true := by
    decide +kernel
  have hthis := List.all_eq_true.mp hall k hk
  rw [hword] at hthis
  simpa [Option.any_eq_true] using hthis

/-- No two keywords are spelled alike. -/
theorem nodup_spellings : (keywords.map fun k => k.spelling?.map String.toList).Nodup := by
  decide +kernel

theorem spelledAs_iff (hk : k ∈ keywords) :
    SpelledAs k text ↔ k.spelling?.map String.toList = some (lower text) := by
  constructor
  · rintro ⟨word, hword, htext⟩
    rw [hword, htext, (keyword_spelling hk hword).1, Option.map_some]
  · intro h
    obtain ⟨word, hword, htext⟩ := Option.map_eq_some_iff.mp h
    exact ⟨word, hword, by rw [htext, lower_lower]⟩

/-- A keyword is found where it is spelled. -/
theorem keyword?_eq_some_iff (hks : ∀ k ∈ ks, k ∈ keywords) :
    keyword? ks text = some k ↔ k ∈ ks ∧ SpelledAs k text := by
  constructor
  · intro h
    have hk := keyword?_mem h
    refine ⟨hk, (spelledAs_iff (hks k hk)).mpr ?_⟩
    simpa [lower] using List.find?_some h
  · rintro ⟨hk, hspelled⟩
    have hspelling := (spelledAs_iff (hks k hk)).mp hspelled
    obtain ⟨k', hk'⟩ : ∃ k', keyword? ks text = some k' := by
      apply Option.isSome_iff_exists.mp
      rw [keyword?, List.find?_isSome]
      exact ⟨k, hk, by simpa [lower] using hspelling⟩
    have hspelling' : k'.spelling?.map String.toList = some (lower text) := by
      simpa [lower] using List.find?_some hk'
    -- No two keywords are spelled alike, so the one that is found is `k`.
    have hsame : k' = k := List.inj_on_of_nodup_map nodup_spellings (hks k' (keyword?_mem hk'))
      (hks k hk) (hspelling'.trans hspelling.symm)
    rw [hk', hsame]

/-- A text that is spelled as a keyword starts with a letter. -/
theorem SpelledAs.exists_isAlpha (h : SpelledAs k text) (hk : k ∈ keywords) :
    ∃ c ∈ text.head?, c.isAlpha = true := by
  obtain ⟨word, hword, htext⟩ := h
  obtain ⟨hlower, d, hd, halpha⟩ := keyword_spelling hk hword
  cases text with
  | nil =>
    rw [← hlower, ← htext] at hd
    cases hd
  | cons c text =>
    rw [← hlower, ← htext] at hd
    cases hd
    exact ⟨c, rfl, (isAlpha_caseBlind c).symm.trans halpha⟩

/-! ## Kinds of words -/

/-- A word is a keyword of the list, or has the kind of other words. -/
theorem keyword?_getD_mem (ks : List Kind) (k : Kind) (word : List Char) :
    (keyword? ks word).getD k ∈ k :: ks := by
  cases h : keyword? ks word with
  | none => exact List.mem_cons_self
  | some k' => exact List.mem_cons_of_mem k (keyword?_mem h)

/-- Where other words have a kind of their own, a keyword is known by it. -/
theorem keyword?_getD_eq_iff (hks : ∀ k ∈ ks, k ∈ keywords) {other : Kind} (hk : k ∈ keywords)
    (hother : other ∉ keywords) :
    (keyword? ks text).getD other = k ↔ k ∈ ks ∧ SpelledAs k text := by
  rw [← keyword?_eq_some_iff hks]
  cases h : keyword? ks text with
  | none =>
    refine iff_of_false ?_ (by simp)
    rintro rfl
    exact hother hk
  | some k' => simp

theorem SpelledAs.startsAs (h : SpelledAs k text) (hk : k ∈ keywords) :
    StartsAs .identifier text := by
  obtain ⟨c, hc, halpha⟩ := h.exists_isAlpha hk
  have hstart : isNameStart c = true := isNameStart_iff.mpr (.inl halpha)
  refine ⟨c, hc, ?_⟩
  rw [shape, if_neg (by simp [isDigit_eq_false_of_isNameStart hstart]), if_pos hstart]

/-- A text of another class than names is no keyword. -/
theorem not_spelledAs {s : Shape} (hs : StartsAs s text) (hne : s ≠ .identifier)
    (hk : k ∈ keywords) : ¬ SpelledAs k text := by
  intro h
  exact hne (hs.unique (h.startsAs hk) List.prefix_rfl List.prefix_rfl)

/-! ## Kinds of numbers -/

theorem HasExponent.exists_mem (h : HasExponent cs) : ∃ c ∈ cs, c.isDigit = false := by
  obtain ⟨front, exp, rfl, hexp⟩ := h
  obtain ⟨c, tail, rfl, hc, -⟩ := hexp.exists_cons
  exact ⟨c, by simp, hc⟩

/-- A row of digits has neither a point nor an exponent. -/
theorem IsDigits.not_decimal (h : IsDigits cs) : ¬ ('.' ∈ cs ∨ HasExponent cs) := by
  rintro (hpoint | hexp)
  · exact absurd (h.2 '.' hpoint) (by decide)
  · obtain ⟨c, hc, hfalse⟩ := hexp.exists_mem
    rw [h.2 c hc] at hfalse
    cases hfalse

/-- The value of a row of digits. -/
def decimalValue (ds : List Char) : Nat :=
  Nat.ofDigits 10 (ds.reverse.map fun d => d.toNat - '0'.toNat)

theorem digitsValue_eq (ds : List Char) : digitsValue ds = decimalValue ds := by
  induction ds using List.reverseRecOn with
  | nil => rfl
  | append_singleton ds d ih =>
    rw [decimalValue, List.reverse_append, List.reverse_singleton, List.singleton_append,
      List.map_cons, Nat.ofDigits_cons, digitsValue, List.foldl_append]
    show 10 * digitsValue ds + _ = _
    rw [ih, decimalValue, Nat.add_comm]

theorem readInteger?_eq (h : IsDigits cs) : readInteger? cs = some (decimalValue cs : Int) := by
  obtain ⟨hne, hall⟩ := h
  -- A digit is no sign.
  have hsign : splitSign cs = (false, cs) := by
    obtain ⟨d, ds, rfl⟩ := List.exists_cons_of_ne_nil hne
    have hd : d.isDigit = true := hall d (by simp)
    unfold splitSign
    split
    · rename_i heq
      cases heq
      cases hd
    · rename_i heq
      cases heq
      cases hd
    · rfl
  have hdigits : ¬ (cs.isEmpty || !cs.all Char.isDigit) = true := by
    simpa [hne] using hall
  rw [readInteger?, hsign]
  simp only [if_neg hdigits, digitsValue_eq]
  rfl

/-- **An integer literal has its value, if it fits into 64 bits with a sign.** -/
theorem IsDigits.toInt?_eq_some_iff {text : String} (h : IsDigits text.toList) (n : Int) :
    NumberLiteral.toInt? ⟨.integer, text⟩ = some n ↔
      n = decimalValue text.toList ∧ n ≤ 2 ^ 63 - 1 := by
  show (readInteger? text.toList).filter NumberLiteral.isInt64 = some n ↔ _
  rw [readInteger?_eq h, Option.filter_eq_some_iff, Option.some_inj, eq_comm]
  refine and_congr_right ?_
  rintro rfl
  have hbound : Int.pow 2 63 = 2 ^ 63 := rfl
  simp only [NumberLiteral.isInt64, hbound, Bool.and_eq_true, decide_eq_true_eq]
  omega

/-! ## Kinds and texts -/

/-- The kind of a token is told by its mode and its text. -/
structure KindFits (m : Mode) (k : Kind) (text : String) : Prop where
  /-- The token is a keyword if the whole text is one of the mode, letter case apart. -/
  keyword : ∀ k' ∈ keywords, k = k' ↔ k' ∈ m.keywords ∧ SpelledAs k' text.toList
  /-- The token is a number if it is written as one in an expression. -/
  number : k = .integer ∨ k = .decimal ↔ m = .expression ∧ IsNumber true text.toList
  /-- A number is a decimal one if it has a point or an exponent. -/
  decimal : m = .expression → IsNumber true text.toList →
    (k = .decimal ↔ '.' ∈ text.toList ∨ HasExponent text.toList)
  /-- An integer has its value, if it fits into 64 bits with a sign. -/
  value : k = .integer → ∀ n, NumberLiteral.toInt? ⟨.integer, text⟩ = some n ↔
    n = decimalValue text.toList ∧ n ≤ 2 ^ 63 - 1

/-- The kinds that the text of a token decides on. -/
def decidedKinds : List Kind := .integer :: .decimal :: keywords

theorem commandMark_kind_not_mem (h : commandMark cs = some l) : l.kind ∉ decidedKinds := by
  unfold commandMark at h
  split at h <;> cases h <;> simp [decidedKinds, keywords, Mode.keywords]

theorem sourceMark_kind_not_mem (h : sourceMark cs = some l) : l.kind ∉ decidedKinds := by
  unfold sourceMark at h
  split at h <;> cases h <;> simp [decidedKinds, keywords, Mode.keywords]

theorem operator_kind_not_mem (h : operator cs = some l) : l.kind ∉ decidedKinds := by
  unfold operator at h
  split at h <;> cases h <;> simp [decidedKinds, keywords, Mode.keywords]

theorem number_kind (h : number cs = some l) : l.kind = .integer ∨ l.kind = .decimal :=
  (number_isNumber h).imp And.left And.left

/-- The marks of command mode are no keywords. -/
theorem not_spelledAs_commandMark (h : commandMark cs = some l) (hk : k ∈ keywords) :
    ¬ SpelledAs k l.text := by
  intro hspelled
  obtain ⟨c, hc, htext⟩ := commandMark_text h
  obtain ⟨d, hd, halpha⟩ := hspelled.exists_isAlpha hk
  rw [htext] at hd
  cases hd
  simp only [List.mem_cons, List.not_mem_nil, or_false] at hc
  rcases hc with rfl | rfl | rfl <;> cases halpha

theorem number_startsAs (h : number cs = some l) : StartsAs .number l.text := by
  rcases number_isNumber h with ⟨-, hdigits⟩ | ⟨-, hnumber, -⟩
  · exact (hdigits.isNumber true).startsAs
  · exact hnumber.startsAs

theorem mem_commandKeywords : ∀ k ∈ Mode.keywords .command, k ∈ keywords :=
  fun _ h => List.mem_append_left _ h

theorem mem_expressionKeywords : ∀ k ∈ Mode.keywords .expression, k ∈ keywords :=
  fun _ h => List.mem_append_right _ h

theorem Found.keyword_iff (h : Found m cs l) (hstring : l.kind ≠ .string) (hk : k ∈ keywords) :
    l.kind = k ↔ k ∈ m.keywords ∧ SpelledAs k l.text := by
  -- A token of another kind than words is no keyword, and is not spelled as one.
  have hother (hkind : l.kind ∉ decidedKinds) : l.kind ≠ k := by
    rintro rfl
    exact hkind (List.mem_cons_of_mem _ (List.mem_cons_of_mem _ hk))
  cases h with
  | commandMark h =>
    exact iff_of_false (hother (commandMark_kind_not_mem h)) fun hkeyword =>
      not_spelledAs_commandMark h hk hkeyword.2
  | commandWord h => exact keyword?_getD_eq_iff mem_commandKeywords hk (by decide)
  | string h => exact absurd rfl hstring
  | @quotedName _ cut h =>
    have hs : StartsAs .quotedName cut.1 := IsQuotedName.startsAs (exists_double_of_quotedName h)
    exact iff_of_false (hother (by decide : Kind.quotedName ∉ decidedKinds)) fun hkeyword =>
      not_spelledAs hs (by decide) hk hkeyword.2
  | number h =>
    refine iff_of_false ?_ fun hkeyword =>
      not_spelledAs (number_startsAs h) (by decide) hk hkeyword.2
    rintro rfl
    rcases number_kind h with heq | heq
    · rw [heq] at hk
      exact absurd hk (by decide)
    · rw [heq] at hk
      exact absurd hk (by decide)
  | identifier h => exact keyword?_getD_eq_iff mem_expressionKeywords hk (by decide)
  | operator h =>
    exact iff_of_false (hother (operator_kind_not_mem h)) fun hkeyword =>
      not_spelledAs (startsAs_operator (operator_mem h)) (by decide) hk hkeyword.2
  | quotedSourceName h =>
    exact iff_of_false (hother (by decide : Kind.quotedSourceName ∉ decidedKinds)) fun hkeyword =>
      absurd hkeyword.1 List.not_mem_nil
  | sourceMark h =>
    exact iff_of_false (hother (sourceMark_kind_not_mem h)) fun hkeyword =>
      absurd hkeyword.1 List.not_mem_nil
  | sourceWord h =>
    exact iff_of_false (hother (by decide : Kind.sourceName ∉ decidedKinds)) fun hkeyword =>
      absurd hkeyword.1 List.not_mem_nil

/-- A word is no number. -/
theorem keyword?_getD_ne_number {ks : List Kind} {other : Kind} (word : List Char)
    (hks : ∀ k ∈ other :: ks, k ≠ .integer ∧ k ≠ .decimal) :
    ¬ ((keyword? ks word).getD other = .integer ∨ (keyword? ks word).getD other = .decimal) := by
  rw [not_or]
  exact hks _ (keyword?_getD_mem ks other word)

/-- What has the kind of a number is found as one. -/
theorem Found.number_of_kind (h : Found m cs l) (hk : l.kind = .integer ∨ l.kind = .decimal) :
    m = .expression ∧ Lexer.number cs = some l := by
  have hdecided : l.kind ∈ decidedKinds := by
    rcases hk with heq | heq <;> simp [heq, decidedKinds]
  cases h with
  | commandMark h => exact absurd hdecided (commandMark_kind_not_mem h)
  | commandWord h => exact absurd hk (keyword?_getD_ne_number _ (by decide))
  | string h => exact absurd hdecided (by decide : Kind.string ∉ decidedKinds)
  | quotedName h => exact absurd hdecided (by decide : Kind.quotedName ∉ decidedKinds)
  | number h => exact ⟨rfl, h⟩
  | identifier h => exact absurd hk (keyword?_getD_ne_number _ (by decide))
  | operator h => exact absurd hdecided (operator_kind_not_mem h)
  | quotedSourceName h => exact absurd hdecided (by decide : Kind.quotedSourceName ∉ decidedKinds)
  | sourceMark h => exact absurd hdecided (sourceMark_kind_not_mem h)
  | sourceWord h => exact absurd hdecided (by decide : Kind.sourceName ∉ decidedKinds)

/-- What is written as a number in an expression is found as one. -/
theorem Found.number_of_text (h : Found .expression cs l) (hstring : l.kind ≠ .string)
    (ht : IsNumber true l.text) : Lexer.number cs = some l := by
  have hclass {s : Shape} (hs : StartsAs s l.text) : s = .number :=
    hs.unique ht.startsAs List.prefix_rfl List.prefix_rfl
  cases h with
  | string h => exact absurd rfl hstring
  | quotedName h => cases hclass (IsQuotedName.startsAs (exists_double_of_quotedName h))
  | number h => exact h
  | identifier h => cases hclass (identifier_isIdentifier h).startsAs
  | operator h => cases hclass (startsAs_operator (operator_mem h))

/-- **The kind of a token fits its text.** -/
theorem Found.kindFits (h : Found m cs l) (hstring : l.kind ≠ .string) :
    KindFits m l.kind (String.ofList l.text) := by
  constructor
  · intro k hk
    rw [String.toList_ofList]
    exact h.keyword_iff hstring hk
  · rw [String.toList_ofList]
    constructor
    · intro hk
      obtain ⟨hm, hnumber⟩ := h.number_of_kind hk
      refine ⟨hm, ?_⟩
      rcases number_isNumber hnumber with ⟨-, hdigits⟩ | ⟨-, hnumber, -⟩
      · exact hdigits.isNumber true
      · exact hnumber
    · rintro ⟨rfl, hnumber⟩
      exact number_kind (h.number_of_text hstring hnumber)
  · rw [String.toList_ofList]
    rintro rfl hnumber
    rcases number_isNumber (h.number_of_text hstring hnumber) with ⟨hk, hdigits⟩ | ⟨hk, -, hdecimal⟩
    · exact iff_of_false (by simp [hk]) hdigits.not_decimal
    · exact iff_of_true hk hdecimal
  · intro hk n
    obtain ⟨-, hnumber⟩ := h.number_of_kind (.inl hk)
    rcases number_isNumber hnumber with ⟨-, hdigits⟩ | ⟨hdecimal, -⟩
    · rw [← String.toList_ofList (l := l.text)] at hdigits
      exact hdigits.toInt?_eq_some_iff n
    · rw [hk] at hdecimal
      cases hdecimal

/-! ## The tokens of a source -/

/-- The token has the longest text of a token of its mode that stands at its place in the source. -/
def IsLongest (bare : Bool) (source : String) (r : Reading) : Prop :=
  ∃ past rest, source.toList = past ++ rest ∧ r.token.span.start = utf8Length past ∧
    LongestAt (TokenText bare r.mode) rest r.token.text.toList

/-- **Maximal munch.** In a source that is lexed, each token but strings and the end of the input is
the longest text of a token of the mode in force that stands at its place, and its kind is told by
its text: a word of a command or an expression is a keyword if the whole of it is spelled as one of
the mode, letter case apart, and no source name is; a number is a decimal one if it has a point or
an exponent; and an integer has its value if it fits into 64 bits. A number may end with its
point. -/
theorem tokens_longest {m : Mode} {source : String} {tokens : List Token}
    (h : tokenizeIn m source = .ok tokens) :
    ∃ rs, readingsIn m source = .ok rs ∧ rs.map Reading.token = tokens ∧
      ∀ r ∈ rs, r.token.kind ≠ .endOfInput → r.token.kind ≠ .string →
        IsLongest true source r ∧ KindFits r.mode r.token.kind r.token.text := by
  refine ⟨withModes (.start m) tokens, readingsIn_eq h, map_token_withModes _ _, ?_⟩
  intro r hr hk hstring
  obtain ⟨past, rest, l, hsplit, hscan, htoken⟩ :=
    (reads_of_tokensFrom h).scanned (Position.after_nil _).symm hr hk
  rw [htoken] at hstring
  rw [IsLongest, htoken]
  refine ⟨⟨past, rest, hsplit, Position.offset_start_after past, ?_⟩,
    (found_of_scan hscan).kindFits hstring⟩
  have hlongest := scan_longest hscan hstring
  rwa [← String.toList_ofList (l := l.text)] at hlongest

/-- An expression in which a point has no digits behind it, two operators stand side by side, and
one of two words is a keyword. -/
theorem tokens_longest_expression :
    ∃ tokens rs, tokenizeIn .expression "1.e5<==BY bye 7" = .ok tokens ∧
      tokens.map (fun t => (t.kind, t.text)) = [(.decimal, "1.e5"), (.lessEqual, "<="),
        (.assign, "="), (.byWord, "BY"), (.name, "bye"), (.integer, "7"), (.endOfInput, "<EOF>")] ∧
      readingsIn .expression "1.e5<==BY bye 7" = .ok rs ∧ rs.map Reading.token = tokens ∧
      ∀ r ∈ rs, r.token.kind ≠ .endOfInput → r.token.kind ≠ .string →
        IsLongest true "1.e5<==BY bye 7" r ∧ KindFits r.mode r.token.kind r.token.text := by
  have htexts : (tokenizeIn .expression "1.e5<==BY bye 7").map
      (List.map fun t => (t.kind, t.text)) = .ok [(.decimal, "1.e5"), (.lessEqual, "<="),
        (.assign, "="), (.byWord, "BY"), (.name, "bye"), (.integer, "7"),
        (.endOfInput, "<EOF>")] := by
    decide +kernel
  obtain ⟨tokens, htokens, htexts⟩ := exists_of_map_ok htexts
  obtain ⟨rs, hrs, htoken, hlongest⟩ := tokens_longest htokens
  exact ⟨tokens, rs, htokens, htexts, hrs, htoken, hlongest⟩

/-- Where digits are required behind a point, a number ends with a digit. -/
theorem IsNumber.isDigit_getLast (h : IsNumber false cs) : ∃ d ∈ cs.getLast?, d.isDigit = true := by
  -- Each part of a number ends with a row of digits.
  have hends (front : List Char) {ds : List Char} (hds : IsDigits ds) :
      ∃ d ∈ (front ++ ds).getLast?, d.isDigit = true := by
    obtain ⟨ds, d, rfl⟩ := List.eq_nil_or_concat ds |>.resolve_left hds.1
    exact ⟨d, by simp, hds.2 d (by simp)⟩
  obtain ⟨whole, frac, exp, rfl, hwhole, hfrac, hexp⟩ := h
  rcases hexp with rfl | ⟨c, sign, ds, rfl, -, hds⟩
  · rcases hfrac with rfl | ⟨ds, rfl, hds⟩
    · simpa using hends [] hwhole
    · have hdigits : IsDigits ds := hds.resolve_right (by simp)
      simpa using hends (whole ++ ['.']) hdigits
  · simpa using hends (whole ++ (frac ++ c :: sign)) hds

/-- **A number may end with its point.** Where digits are required behind a point, the number `1.`
is no text of a token. -/
theorem bareNumber_not_longest :
    ¬ ∀ m source rs, readingsIn m source = .ok rs →
      ∀ r ∈ rs, r.token.kind ≠ .endOfInput → r.token.kind ≠ .string → IsLongest false source r := by
  intro h
  have hreadings : readingsIn .expression "1." = .ok [⟨.expression, .decimal, "1.", ⟨0, 2, 1, 1⟩⟩,
      ⟨.expression, .eof ⟨2, 2, 1, 3⟩⟩] := by
    decide +kernel
  obtain ⟨past, rest, -, -, hlongest⟩ :=
    h .expression "1." _ hreadings _ List.mem_cons_self (by simp) (by simp)
  have hstarts : StartsAs .number ['1', '.'] := ⟨'1', rfl, by decide⟩
  have hnumber : IsNumber false ['1', '.'] :=
    hlongest.holds.shapeText hstarts List.prefix_rfl List.prefix_rfl
  obtain ⟨d, hd, hdigit⟩ := hnumber.isDigit_getLast
  cases hd
  cases hdigit

end PipeQuery.Lexer

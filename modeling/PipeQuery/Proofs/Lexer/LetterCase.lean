import Mathlib.Data.List.Forall2
import PipeQuery.Proofs.Lexer.Stability

/-!
# Letter case

Letters may be written in either case. A text in lower case is cut into the same tokens as the text
itself, at the same places, and fails where the text fails: each class of characters that the lexer
knows has both cases of a letter or neither, no mark has letters, and keywords are compared in lower
case. The letters are those of ASCII; all other characters stay as they are.

## Main definitions

* `Lexer.lower`, with `Cut.lower`, `Lexeme.lower`, `Token.lower`: texts in lower case
* `Lexer.CaseBlind`: what is said of both cases of a letter alike
* `Lexer.Letterless`: texts without letters, as marks are
* `Lexer.CutsLower`: a recogniser that cuts a text in lower case where it cuts the text
* `SameButCase`, `Token.SameButCase`: texts and tokens that differ in letter case only
* `SameReading`: two outcomes of lexing that differ in letter case only

## Main results

* `Lexer.scan_lower`: the first token of a text in lower case
* `Lexer.tokensFrom_lower`: the tokens of a text in lower case
* `tokenizeIn_sameReading`: sources that differ in letter case only are lexed alike
-/

namespace PipeQuery

open Token (Kind)

namespace Lexer

variable {cs ds mark : List Char} {c d : Char} {p : Char → Bool} {part : List Char → Option Cut}

/-! ## Characters -/

/-- The text with its letters in lower case. -/
def lower (cs : List Char) : List Char := cs.map Char.toLower

@[simp]
theorem lower_nil : lower [] = [] := rfl

@[simp]
theorem lower_cons (c : Char) (cs : List Char) : lower (c :: cs) = c.toLower :: lower cs := rfl

@[simp]
theorem lower_append (cs ds : List Char) : lower (cs ++ ds) = lower cs ++ lower ds :=
  List.map_append

theorem lower_drop (n : Nat) (cs : List Char) : lower (cs.drop n) = (lower cs).drop n :=
  List.map_drop

/-- The letters, in both cases. -/
def letters : List Char := (List.range' 65 26 ++ List.range' 97 26).map Char.ofNat

theorem mem_letters (h : c.isAlpha = true) : c ∈ letters := by
  have hval : (c.val ≥ 'A'.val ∧ c.val ≤ 'Z'.val) ∨ (c.val ≥ 'a'.val ∧ c.val ≤ 'z'.val) := by
    rcases Bool.or_eq_true_iff.mp h with hupper | hlower
    · exact .inl (of_decide_eq_true hupper)
    · exact .inr ((Bool.and_eq_true_iff.mp hlower).imp of_decide_eq_true of_decide_eq_true)
  have hrange : c.toNat ∈ List.range' 65 26 ++ List.range' 97 26 := by
    simp only [ge_iff_le, UInt32.le_iff_toNat_le, UInt32.reduceToNat, Char.reduceVal,
      Char.toNat_val] at hval
    simp only [List.mem_append, List.mem_range'_1]
    omega
  exact List.mem_map.mpr ⟨c.toNat, hrange, Char.ofNat_toNat c⟩

/-- A character that is no letter stays as it is. -/
theorem toLower_of_not_isAlpha (h : c.isAlpha = false) : c.toLower = c := by
  have hupper : c.isUpper = false := (Bool.or_eq_false_iff.mp h).1
  exact dif_neg (of_decide_eq_false hupper)

/-- What is said of a character is the same for both cases of a letter. -/
def CaseBlind {α : Type} (f : Char → α) : Prop := ∀ c, f c.toLower = f c

/-- Only letters need to be looked at. -/
theorem caseBlind_of_letters {α : Type} [DecidableEq α] {f : Char → α}
    (h : letters.all fun c => f c.toLower = f c) : CaseBlind f := by
  intro c
  cases hc : c.isAlpha with
  | true => simpa using List.all_eq_true.mp h c (mem_letters hc)
  | false => rw [toLower_of_not_isAlpha hc]

theorem toLower_caseBlind : CaseBlind Char.toLower := caseBlind_of_letters (by decide)

@[simp]
theorem lower_lower (cs : List Char) : lower (lower cs) = lower cs := by
  rw [lower, lower, List.map_map]
  exact List.map_congr_left fun c _ => toLower_caseBlind c

theorem isAlpha_caseBlind : CaseBlind Char.isAlpha := caseBlind_of_letters (by decide)

/-- No other character becomes one that is no letter. -/
theorem toLower_eq_iff (hd : d.isAlpha = false) : c.toLower = d ↔ c = d := by
  cases hc : c.isAlpha with
  | true =>
    have hlower : c.toLower ≠ d := by
      rintro rfl
      rw [isAlpha_caseBlind, hc] at hd
      cases hd
    have hsame : c ≠ d := by
      rintro rfl
      rw [hc] at hd
      cases hd
    simp [hlower, hsame]
  | false => rw [toLower_of_not_isAlpha hc]

theorem isLayout_caseBlind : CaseBlind isLayout := caseBlind_of_letters (by decide)

theorem isDigit_caseBlind : CaseBlind Char.isDigit := caseBlind_of_letters (by decide)

theorem isNameStart_caseBlind : CaseBlind isNameStart := caseBlind_of_letters (by decide)

theorem isNamePart_caseBlind : CaseBlind isNamePart := caseBlind_of_letters (by decide)

theorem isCommandPart_caseBlind : CaseBlind isCommandPart := caseBlind_of_letters (by decide)

theorem isSourcePart_caseBlind : CaseBlind isSourcePart := caseBlind_of_letters (by decide)

/-- What a class leaves out is no letter, if letters belong to the class. -/
theorem isAlpha_eq_false (h : letters.all p) (hc : p c = false) : c.isAlpha = false := by
  by_contra halpha
  have hp : p c = true := List.all_eq_true.mp h c (mem_letters (by simpa using halpha))
  rw [hc] at hp
  cases hp

/-- Whether a text starts with a character that is no letter. -/
theorem head?_lower_eq_iff (hd : d.isAlpha = false) :
    (lower cs).head? = some d ↔ cs.head? = some d := by
  cases cs with
  | nil => rfl
  | cons c cs => simp [toLower_eq_iff hd]

/-! ## Marks -/

/-- A text without letters. -/
def Letterless (cs : List Char) : Prop := ∀ c ∈ cs, c.isAlpha = false

theorem Letterless.lower_eq (hmark : Letterless mark) : lower mark = mark := by
  induction mark with
  | nil => rfl
  | cons d mark ih =>
    obtain ⟨hd, hmark⟩ := List.forall_mem_cons.mp hmark
    rw [lower_cons, ih hmark, (toLower_eq_iff hd).mpr rfl]

/-- Such a mark stands at the start of a text if it stands there in lower case. -/
theorem Letterless.lower_eq_append_iff (hmark : Letterless mark) :
    lower cs = mark ++ ds ↔ ∃ tail, cs = mark ++ tail ∧ lower tail = ds := by
  constructor
  · intro h
    induction mark generalizing cs with
    | nil => exact ⟨cs, rfl, h⟩
    | cons d mark ih =>
      obtain ⟨hd, hmark⟩ := List.forall_mem_cons.mp hmark
      obtain ⟨c, tail, rfl, hc, htail⟩ := List.map_eq_cons_iff.mp h
      obtain ⟨tail, rfl, rfl⟩ := ih hmark htail
      exact ⟨tail, by rw [(toLower_eq_iff hd).mp hc]; rfl, rfl⟩
  · rintro ⟨tail, rfl, rfl⟩
    rw [lower_append, hmark.lower_eq]

theorem Letterless.prefix_lower_iff (hmark : Letterless mark) (cs : List Char) :
    mark <+: lower cs ↔ mark <+: cs := by
  constructor
  · rintro ⟨ds, hds⟩
    obtain ⟨tail, rfl, -⟩ := hmark.lower_eq_append_iff.mp hds.symm
    exact ⟨tail, rfl⟩
  · rintro ⟨tail, rfl⟩
    exact ⟨lower tail, by rw [lower_append, hmark.lower_eq]⟩

/-! ## Cuts -/

/-- The cut of the text in lower case. -/
def Cut.lower (cut : Cut) : Cut := (Lexer.lower cut.1, Lexer.lower cut.2)

/-- The lexeme of the text in lower case. -/
def Lexeme.lower (l : Lexeme) : Lexeme := ⟨l.kind, Lexer.lower l.text, Lexer.lower l.rest⟩

/-- The recogniser takes from a text in lower case what it takes from the text. -/
def CutsLower (part : List Char → Option Cut) : Prop :=
  ∀ cs, part (lower cs) = (part cs).map Cut.lower

theorem Cut.lower_behind (taken : List Char) (cut : Cut) :
    (cut.behind taken).lower = cut.lower.behind (Lexer.lower taken) := by
  simp [Cut.lower, Cut.behind]

theorem map_behind_lower (taken : List Char) (o : Option Cut) :
    (o.map (Cut.behind taken)).map Cut.lower =
      (o.map Cut.lower).map (Cut.behind (lower taken)) := by
  cases o with
  | none => rfl
  | some cut => exact congrArg some (cut.lower_behind taken)

theorem takeRun_lower (hp : CaseBlind p) (cs : List Char) :
    takeRun p (lower cs) = (takeRun p cs).lower := by
  have hcomp : p ∘ Char.toLower = p := funext hp
  simp [takeRun, lower, Cut.lower, List.takeWhile_map, List.dropWhile_map, hcomp]

theorem takeRun1_lower (hp : CaseBlind p) : CutsLower (takeRun1 p) := by
  intro cs
  have htake : (lower cs).takeWhile p = lower (cs.takeWhile p) :=
    congrArg Prod.fst (takeRun_lower hp cs)
  rw [takeRun1, takeRun1, htake, takeRun_lower hp]
  by_cases hempty : (cs.takeWhile p).isEmpty = true
  · simp [lower, hempty]
  · simp [lower, hempty]

theorem takeThrough_lower (hmark : Letterless mark) : CutsLower (takeThrough mark) := by
  intro cs
  induction cs with
  | nil => cases mark <;> rfl
  | cons c cs ih =>
    have hprefix : mark <+: c.toLower :: lower cs ↔ mark <+: c :: cs :=
      hmark.prefix_lower_iff (c :: cs)
    rw [lower_cons, takeThrough, takeThrough]
    simp only [List.isPrefixOf_iff_prefix, hprefix]
    by_cases hp : mark <+: c :: cs
    · rw [if_pos hp, if_pos hp]
      simp [Cut.lower, hmark.lower_eq, lower_drop]
    · rw [if_neg hp, if_neg hp, ih, map_behind_lower]
      rfl

/-- A recogniser that takes a mark, and behind it what `part` takes. -/
theorem cutsLower_of_mark {whole : List Char → Option Cut} (mark : List Char)
    (hmark : Letterless mark) (hpart : CutsLower part)
    (htake : ∀ tail, whole (mark ++ tail) = (part tail).map (Cut.behind mark))
    (hnone : ∀ cs, ¬ mark <+: cs → whole cs = none) : CutsLower whole := by
  intro cs
  by_cases hp : mark <+: cs
  · obtain ⟨tail, rfl⟩ := hp
    rw [lower_append, hmark.lower_eq, htake, htake, hpart, map_behind_lower, hmark.lower_eq]
  · have hlow : ¬ mark <+: lower cs := by rwa [hmark.prefix_lower_iff]
    rw [hnone cs hp, hnone _ hlow]
    rfl

theorem lineComment_lower : CutsLower lineComment := by
  have hline : CaseBlind fun c => c != '\n' && c != '\r' := caseBlind_of_letters (by decide)
  have hpart : CutsLower fun cs => some (takeRun (fun c => c != '\n' && c != '\r') cs) :=
    fun cs => congrArg some (takeRun_lower hline cs)
  exact cutsLower_of_mark ['/', '/'] (by simp [Letterless]) hpart (fun tail => rfl)
    fun cs => lineComment_eq_none_iff.mpr

theorem blockComment_lower : CutsLower blockComment :=
  cutsLower_of_mark ['/', '*'] (by simp [Letterless]) (takeThrough_lower (by simp [Letterless]))
    (fun tail => rfl) fun cs => blockComment_eq_none

theorem triviaPiece_lower : CutsLower triviaPiece := by
  intro cs
  rw [triviaPiece, takeRun1_lower isLayout_caseBlind, lineComment_lower, blockComment_lower,
    ← Option.map_or, ← Option.map_or]
  rfl

/-- **The gap in front of a text** is the same in lower case. -/
theorem trivia_lower (cs : List Char) : trivia (lower cs) = (trivia cs).lower := by
  induction cs using trivia.induct with
  | case1 cs piece rest h ih =>
    have hpiece : triviaPiece (lower cs) = some (lower piece, lower rest) := by
      rw [triviaPiece_lower, h]
      rfl
    rw [trivia_of_piece h, trivia_of_piece hpiece, ih, Cut.lower_behind]
  | case2 cs h =>
    have hpiece : triviaPiece (lower cs) = none := by
      rw [triviaPiece_lower, h]
      rfl
    rw [trivia_of_none h, trivia_of_none hpiece]
    rfl

theorem opensComment_lower (cs : List Char) : opensComment (lower cs) = opensComment cs := by
  have hmark : Letterless ['/', '*'] := by simp [Letterless]
  rw [Bool.eq_iff_iff, ← Bool.not_eq_false, ← Bool.not_eq_false, opensComment_eq_false_iff,
    opensComment_eq_false_iff, hmark.prefix_lower_iff]

/-! ## Literals and names -/

theorem stringTail_lower : CutsLower stringTail := by
  intro cs
  fun_induction stringTail cs with
  | case1 => rfl
  | case2 cs => rfl
  | case3 c cs ih =>
    rw [map_behind_lower, ← ih]
    rfl
  | case4 c cs hquote hescape hc =>
    simp only [Bool.or_eq_true, decide_eq_true_eq] at hc
    rcases hc with (rfl | rfl) | rfl
    · -- A backslash takes the next character with it, so it is the last one here.
      cases cs with
      | nil => rfl
      | cons d cs => exact (hescape d cs rfl rfl).elim
    · rfl
    · rfl
  | case5 c cs hquote hescape hc ih =>
    simp only [Bool.or_eq_true, decide_eq_true_eq, not_or] at hc
    have hne {d : Char} (hd : d.isAlpha = false) (h : c ≠ d) : c.toLower ≠ d :=
      fun he => h ((toLower_eq_iff hd).mp he)
    rw [lower_cons, stringTail_cons (hne rfl hquote) (hne rfl hc.1.1)
      ⟨hne rfl hc.1.2, hne rfl hc.2⟩, ih, map_behind_lower]
    rfl

theorem tripleQuoted_lower : CutsLower tripleQuoted := by
  refine cutsLower_of_mark ['"', '"', '"'] (by simp [Letterless])
    (takeThrough_lower (by simp [Letterless])) (fun tail => rfl) fun cs hp => ?_
  unfold tripleQuoted
  split
  · exact absurd ⟨_, rfl⟩ hp
  · rfl

theorem doubleQuoted_lower : CutsLower doubleQuoted := by
  refine cutsLower_of_mark ['"'] (by simp [Letterless]) stringTail_lower
    (fun tail => rfl) fun cs hp => ?_
  unfold doubleQuoted
  split
  · exact absurd ⟨_, rfl⟩ hp
  · rfl

theorem stringLiteral_lower : CutsLower stringLiteral := by
  intro cs
  rw [stringLiteral, stringLiteral, tripleQuoted_lower, doubleQuoted_lower, Option.map_or]

theorem quotedNameTail_lower : CutsLower quotedNameTail := by
  intro cs
  fun_induction quotedNameTail cs with
  | case1 => rfl
  | case2 cs ih =>
    rw [map_behind_lower, ← ih]
    rfl
  | case3 cs hpair =>
    have hclose : ∀ c ∈ (lower cs).head?, (c == '\x60') = false := by
      intro c hc
      rw [beq_eq_false_iff_ne]
      rintro rfl
      obtain ⟨tail, rfl⟩ := List.head?_eq_some_iff.mp ((head?_lower_eq_iff rfl).mp hc)
      exact hpair tail rfl rfl
    show quotedNameTail ('\x60' :: lower cs) = _
    rw [quotedNameTail_close hclose]
    rfl
  | case4 c cs hpair hc ih =>
    rw [lower_cons, quotedNameTail_cons (fun he => hc ((toLower_eq_iff rfl).mp he)), ih,
      map_behind_lower]
    rfl

theorem quotedName_lower : CutsLower quotedName := by
  refine cutsLower_of_mark ['\x60'] (by simp [Letterless]) quotedNameTail_lower
    (fun tail => rfl) fun cs hp => ?_
  unfold quotedName
  split
  · exact absurd ⟨_, rfl⟩ hp
  · rfl

/-! ## Numbers -/

theorem digits_lower : CutsLower digits := takeRun1_lower isDigit_caseBlind

theorem exponentSign_lower (cs : List Char) :
    exponentSign (lower cs) = (exponentSign cs).lower := by
  cases cs with
  | nil => rfl
  | cons c cs =>
    by_cases hplus : c = '+'
    · subst hplus
      rfl
    by_cases hminus : c = '-'
    · subst hminus
      rfl
    have hnone {c : Char} {cs : List Char} (hplus : c ≠ '+') (hminus : c ≠ '-') :
        exponentSign (c :: cs) = ([], c :: cs) := by
      unfold exponentSign
      split <;> simp_all
    rw [lower_cons, hnone hplus hminus, hnone (fun he => hplus ((toLower_eq_iff rfl).mp he))
      (fun he => hminus ((toLower_eq_iff rfl).mp he))]
    rfl

theorem exponent_lower : CutsLower exponent := by
  intro cs
  cases cs with
  | nil => rfl
  | cons c cs =>
    have hletter : CaseBlind fun c => c = 'e' || c = 'E' := caseBlind_of_letters (by decide)
    have hc : (c.toLower = 'e' || c.toLower = 'E') = (c = 'e' || c = 'E') := hletter c
    rw [lower_cons, exponent, exponent, hc, exponentSign_lower]
    by_cases he : (c = 'e' || c = 'E') = true
    · rw [if_pos he, if_pos he, map_behind_lower, ← digits_lower]
      rfl
    · rw [if_neg he, if_neg he]
      rfl

theorem optional_lower (hpart : CutsLower part) (cs : List Char) :
    optional part (lower cs) = (optional part cs).lower := by
  rw [optional, optional, hpart]
  cases part cs <;> rfl

theorem fraction_lower (cs : List Char) : fraction (lower cs) = (fraction cs).lower := by
  rw [fraction, fraction, optional_lower digits_lower, Cut.lower_behind,
    ← optional_lower exponent_lower]
  rfl

theorem numberAfter_lower (ds cs : List Char) :
    numberAfter (lower ds) (lower cs) = (numberAfter ds cs).lower := by
  by_cases hpoint : cs.head? = some '.'
  · obtain ⟨tail, rfl⟩ := List.head?_eq_some_iff.mp hpoint
    show numberAfter (lower ds) ('.' :: lower tail) = _
    rw [numberAfter_point, numberAfter_point, fraction_lower]
    simp [Lexeme.lower, Cut.lexeme, Cut.behind, Cut.lower]
  · have hne {ds : List Char} (h : ds.head? ≠ some '.') : ∀ c ∈ ds.head?, (c == '.') = false := by
      rintro c hc
      rw [beq_eq_false_iff_ne]
      rintro rfl
      exact h hc
    have hlow : (lower cs).head? ≠ some '.' := by rwa [ne_eq, head?_lower_eq_iff rfl]
    rw [numberAfter_of_ne ds (hne hpoint), numberAfter_of_ne _ (hne hlow), exponent_lower]
    cases exponent cs with
    | none => rfl
    | some cut => simp [Lexeme.lower, Cut.lexeme, Cut.behind, Cut.lower]

theorem number_lower (cs : List Char) : number (lower cs) = (number cs).map Lexeme.lower := by
  rw [number, number, digits_lower]
  cases digits cs with
  | none => rfl
  | some cut => exact congrArg some (numberAfter_lower cut.1 cut.2)

/-! ## Words -/

theorem identifier_lower : CutsLower identifier := by
  intro cs
  cases cs with
  | nil => rfl
  | cons c cs =>
    rw [lower_cons, identifier, identifier, isNameStart_caseBlind,
      takeRun_lower isNamePart_caseBlind]
    by_cases hc : isNameStart c = true
    · rw [if_pos hc, if_pos hc, Option.map_some, Cut.lower_behind]
      rfl
    · rw [if_neg hc, if_neg hc]
      rfl

theorem keyword?_lower (ks : List Kind) (word : List Char) :
    keyword? ks (lower word) = keyword? ks word := by
  have hword : (lower word).map Char.toLower = word.map Char.toLower := lower_lower word
  rw [keyword?, keyword?, hword]

/-- Words of the same kind in either case are found again. -/
theorem map_lexeme_lower (kind : List Char → Kind) (hpart : CutsLower part)
    (hkind : ∀ word, kind (lower word) = kind word) (cs : List Char) :
    ((part (lower cs)).map fun cut => cut.lexeme (kind cut.1)) =
      ((part cs).map fun cut => cut.lexeme (kind cut.1)).map Lexeme.lower := by
  rw [hpart]
  cases part cs with
  | none => rfl
  | some cut => simp [Cut.lexeme, Cut.lower, Lexeme.lower, hkind]

theorem commandWord_lower (cs : List Char) :
    commandWord (lower cs) = (commandWord cs).map Lexeme.lower :=
  map_lexeme_lower (fun word => (commandKeyword? word).getD .unknownCmd)
    (takeRun1_lower isCommandPart_caseBlind)
    (fun word => by rw [commandKeyword?, keyword?_lower, ← commandKeyword?]) cs

theorem expressionWord_lower (cs : List Char) :
    expressionWord (lower cs) = (expressionWord cs).map Lexeme.lower :=
  map_lexeme_lower (fun word => (expressionKeyword? word).getD .name) identifier_lower
    (fun word => by rw [expressionKeyword?, keyword?_lower, ← expressionKeyword?]) cs

theorem sourceWord_lower (cs : List Char) :
    sourceWord (lower cs) = (sourceWord cs).map Lexeme.lower :=
  map_lexeme_lower (fun _ => .sourceName) (takeRun1_lower isSourcePart_caseBlind)
    (fun _ => rfl) cs

/-! ## Operators and punctuation -/

/-- A recogniser of marks without letters takes from a text in lower case what it takes from the
text, if only an `=` behind a mark makes a difference. -/
theorem mark_lower {find : List Char → Option Lexeme}
    (hstarts : ∀ {cs l}, find cs = some l → l.Starts cs)
    (hmark : ∀ {cs l}, find cs = some l → Letterless l.text)
    (hagain : ∀ {cs l}, find cs = some l → ∀ rest' : List Char,
      (rest'.head? = some '=' → l.rest.head? = some '=') →
        find (l.text ++ rest') = some (l.before rest')) (cs : List Char) :
    find (lower cs) = (find cs).map Lexeme.lower := by
  cases h : find cs with
  | some l =>
    have hlow := hagain h (lower l.rest) (head?_lower_eq_iff rfl).mp
    rw [← (hstarts h).1, lower_append, (hmark h).lower_eq, hlow]
    simp [Lexeme.lower, Lexeme.before, (hmark h).lower_eq]
  | none =>
    -- A mark without letters that starts the text in lower case starts the text itself.
    by_contra hsome
    obtain ⟨l, hl⟩ := Option.ne_none_iff_exists'.mp hsome
    obtain ⟨tail, rfl, htail⟩ := (hmark hl).lower_eq_append_iff.mp (hstarts hl).1.symm
    have hfound := hagain hl tail fun hhead => by
      rw [← htail, head?_lower_eq_iff rfl, hhead]
    rw [h] at hfound
    cases hfound

theorem operator_letterless {l : Lexeme} (h : operator cs = some l) : Letterless l.text := by
  unfold operator at h
  split at h <;> cases h <;> simp [Letterless]

theorem operator_lower (cs : List Char) :
    operator (lower cs) = (operator cs).map Lexeme.lower :=
  mark_lower operator_starts operator_letterless (fun h _ => operator_again h) cs

theorem commandMark_letterless {l : Lexeme} (h : commandMark cs = some l) : Letterless l.text := by
  unfold commandMark at h
  split at h <;> cases h <;> simp [Letterless]

theorem commandMark_lower (cs : List Char) :
    commandMark (lower cs) = (commandMark cs).map Lexeme.lower :=
  mark_lower commandMark_starts commandMark_letterless
    (fun h rest' _ => commandMark_stable h rest') cs

theorem sourceMark_letterless {l : Lexeme} (h : sourceMark cs = some l) : Letterless l.text := by
  unfold sourceMark at h
  split at h <;> cases h <;> simp [Letterless]

theorem sourceMark_lower (cs : List Char) :
    sourceMark (lower cs) = (sourceMark cs).map Lexeme.lower :=
  mark_lower sourceMark_starts sourceMark_letterless (fun h rest' _ => sourceMark_stable h rest') cs

/-! ## Tokens -/

/-- What is said of a text without a token is the same in lower case, if it does not start with a
letter. -/
theorem orCause_unexpected_lower {o : Option Lexeme}
    (h : o = none → ∀ c ∈ cs.head?, c.isAlpha = false) :
    orCause (unexpected (lower cs)) (o.map Lexeme.lower) =
      (orCause (unexpected cs) o).map Lexeme.lower := by
  cases o with
  | some l => rfl
  | none =>
    have hhead : (lower cs).head? = cs.head? := by
      cases cs with
      | nil => rfl
      | cons c cs => exact congrArg some ((toLower_eq_iff (h rfl c rfl)).mpr rfl)
    rw [unexpected, unexpected, hhead]
    rfl

theorem orCause_lower (cause : Cause) (o : Option Lexeme) :
    orCause cause (o.map Lexeme.lower) = (orCause cause o).map Lexeme.lower := by
  cases o <;> rfl

/-- **The first token of a text** is the same in lower case, and so is what is said if there is
none. -/
theorem scan_lower (m : Mode) (cs : List Char) :
    scan m (lower cs) = (scan m cs).map Lexeme.lower := by
  have hhead (d : Char) (hd : d.isAlpha = false) :
      (lower cs).head? = some d ↔ cs.head? = some d := head?_lower_eq_iff hd
  cases m with
  | command =>
    rw [scan, scan, commandMark_lower, commandWord_lower, ← Option.map_or]
    refine orCause_unexpected_lower fun hnone c hc => ?_
    -- A letter belongs to a word.
    have hword := takeRun1_eq_none_iff.mp
      (Option.map_eq_none_iff.mp (Option.or_eq_none_iff.mp hnone).2)
    exact isAlpha_eq_false (by decide) (hword c hc)
  | expression =>
    rw [scan, scan]
    simp only [hhead '"' rfl, hhead '\x60' rfl]
    by_cases hquote : cs.head? = some '"'
    · rw [if_pos hquote, if_pos hquote, ← orCause_lower]
      exact congrArg _ (map_lexeme_lower (fun _ => .string) stringLiteral_lower
        (fun _ => rfl) cs)
    rw [if_neg hquote, if_neg hquote]
    by_cases htick : cs.head? = some '\x60'
    · rw [if_pos htick, if_pos htick, ← orCause_lower]
      exact congrArg _ (map_lexeme_lower (fun _ => .quotedName) quotedName_lower
        (fun _ => rfl) cs)
    rw [if_neg htick, if_neg htick, number_lower, expressionWord_lower, operator_lower,
      ← Option.map_or, ← Option.map_or]
    refine orCause_unexpected_lower fun hnone c hc => ?_
    have hword := expressionWord_eq_none_iff.mp
      (Option.or_eq_none_iff.mp (Option.or_eq_none_iff.mp hnone).2).1
    exact isAlpha_eq_false (by decide) (hword c hc)
  | source =>
    rw [scan, scan]
    simp only [hhead '\x60' rfl]
    by_cases htick : cs.head? = some '\x60'
    · rw [if_pos htick, if_pos htick, ← orCause_lower]
      exact congrArg _ (map_lexeme_lower (fun _ => .quotedSourceName) quotedName_lower
        (fun _ => rfl) cs)
    rw [if_neg htick, if_neg htick, sourceMark_lower, sourceWord_lower, ← Option.map_or]
    refine orCause_unexpected_lower fun hnone c hc => ?_
    have hword := takeRun1_eq_none_iff.mp
      (Option.map_eq_none_iff.mp (Option.or_eq_none_iff.mp hnone).2)
    exact isAlpha_eq_false (by decide) (hword c hc)

/-! ## Sources -/

theorem next_toLower (p : Position) (c : Char) : p.next c.toLower = p.next c := by
  have hsize : c.toLower.utf8Size = c.utf8Size := caseBlind_of_letters (by decide) c
  rw [Position.next, Position.next, hsize]
  simp only [toLower_eq_iff (d := '\n') rfl]

theorem after_lower (p : Position) (cs : List Char) : p.after (lower cs) = p.after cs := by
  induction cs generalizing p with
  | nil => rfl
  | cons c cs ih => rw [lower_cons, Position.after_cons, Position.after_cons, ih, next_toLower]

end Lexer

/-- The token with its text in lower case. -/
def Token.lower (t : Token) : Token :=
  { t with text := String.ofList (Lexer.lower t.text.toList) }

namespace Lexer

theorem Lexeme.token_lower (l : Lexeme) (p : Position) :
    (l.lower.token p).lower = (l.token p).lower := by
  simp [Lexeme.token, Lexeme.lower, Token.lower, after_lower]

/-- **The tokens of a text in lower case** are those of the text, in lower case, and it fails where
the text fails. -/
theorem tokensFrom_lower (modes : Modes) (p : Position) (cs : List Char) :
    (tokensFrom modes p (lower cs)).map (List.map Token.lower) =
      (tokensFrom modes p cs).map (List.map Token.lower) := by
  -- In each case the text in lower case has the same gap, cause or token, but in lower case.
  induction modes, p, cs using tokensFrom.induct with
  | case1 modes p cs gap rest hgap hopen =>
    have hlow : trivia (lower cs) = (lower gap, lower rest) := by rw [trivia_lower, hgap]; rfl
    rw [tokensFrom_openComment hgap hopen,
      tokensFrom_openComment hlow (by rwa [opensComment_lower]), after_lower]
  | case2 modes p cs gap rest hgap _ hrest =>
    obtain rfl := List.isEmpty_iff.mp hrest
    have hlow : trivia (lower cs) = (lower gap, []) := by rw [trivia_lower, hgap]; rfl
    rw [tokensFrom_end hgap, tokensFrom_end hlow, after_lower]
  | case3 modes p cs gap rest hgap hopen hrest cause hscan =>
    have hlow : trivia (lower cs) = (lower gap, lower rest) := by rw [trivia_lower, hgap]; rfl
    have hscanlow : scan modes.current (lower rest) = .error cause := by
      rw [scan_lower, hscan]
      rfl
    rw [tokensFrom_stuck hgap (by simpa using hopen) (by simpa using hrest) hscan,
      tokensFrom_stuck hlow (by simpa [opensComment_lower] using hopen)
        (by simpa [lower] using hrest) hscanlow, after_lower]
  | case4 modes p cs gap rest hgap _ hopen hrest l hscan =>
    rename_i ih
    have hlow : trivia (lower cs) = (lower gap, lower rest) := by rw [trivia_lower, hgap]; rfl
    have hscanlow : scan modes.current (lower rest) = .ok l.lower := by
      rw [scan_lower, hscan]
      rfl
    have hmap (x : Except Error (List Token)) (t : Token) :
        (x.map (t :: ·)).map (List.map Token.lower) =
          (x.map (List.map Token.lower)).map (t.lower :: ·) := by
      cases x <;> rfl
    rw [tokensFrom_token hgap (by simpa using hopen) hscan,
      tokensFrom_token hlow (by simpa [opensComment_lower] using hopen) hscanlow, hmap, hmap,
      after_lower, Lexeme.token_lower]
    show ((tokensFrom (modes.next l.kind) ((p.after gap).after (lower l.text))
      (lower l.rest)).map (List.map Token.lower)).map _ = _
    rw [after_lower, ih]

end Lexer

open Lexer

/-- The texts are the same but for the case of letters. -/
def SameButCase (s s' : String) : Prop := lower s.toList = lower s'.toList

/-- The tokens are the same but for the case of the letters in their texts. -/
structure Token.SameButCase (t t' : Token) : Prop where
  kind_eq : t.kind = t'.kind
  span_eq : t.span = t'.span
  text : PipeQuery.SameButCase t.text t'.text

/-- Two outcomes of lexing: tokens of the same kinds and places with the same texts but for the case
of letters, or the same error at the same place. -/
inductive SameReading : Except Lexer.Error (List Token) → Except Lexer.Error (List Token) → Prop
  | tokens {ts ts' : List Token} (h : List.Forall₂ Token.SameButCase ts ts') :
    SameReading (.ok ts) (.ok ts')
  | error (e : Lexer.Error) : SameReading (.error e) (.error e)

theorem Token.sameButCase_of_lower_eq {t t' : Token} (h : t.lower = t'.lower) :
    t.SameButCase t' := by
  simp only [Token.lower, Token.mk.injEq, String.ofList_inj] at h
  obtain ⟨hkind, htext, hspan⟩ := h
  exact ⟨hkind, hspan, htext⟩

theorem sameReading_of_map_eq {x x' : Except Lexer.Error (List Token)}
    (h : x.map (List.map Token.lower) = x'.map (List.map Token.lower)) : SameReading x x' := by
  cases x with
  | error e => cases x' with
    | error e' => cases h; exact .error e
    | ok ts' => cases h
  | ok ts => cases x' with
    | error e' => cases h
    | ok ts' =>
      have htokens : ts.map Token.lower = ts'.map Token.lower := Except.ok.inj h
      have hforall := List.forall₂_map_left_iff.mp (List.forall₂_map_right_iff.mp
        (List.forall₂_eq_eq_eq ▸ htokens))
      exact .tokens (hforall.imp fun _ _ => Token.sameButCase_of_lower_eq)

/-- **The case of letters does not matter.** Sources that are the same but for the case of letters
are lexed alike in every mode: into tokens of the same kinds and places, whose texts are the same
but for the case of letters; or with the same error at the same place, and then the same character
is unexpected. -/
theorem tokenizeIn_sameReading (m : Mode) {s s' : String} (h : SameButCase s s') :
    SameReading (tokenizeIn m s) (tokenizeIn m s') := by
  refine sameReading_of_map_eq ?_
  rw [tokenizeIn, tokenizeIn, ← tokensFrom_lower, h, tokensFrom_lower]

/-- Keywords, an exponent, an escape and a comment in either case. -/
theorem tokenizeIn_sameReading_query :
    let s := "FROM Logs | where x == 1E5 AND y != \"N\\N\" // Done"
    let s' := "from lOGS | WHERE X == 1e5 and Y != \"n\\n\" // dONE"
    SameButCase s s' ∧ (tokenizeIn .command s).isOk = true ∧
      SameReading (tokenizeIn .command s) (tokenizeIn .command s') := by
  intro s s'
  have h : SameButCase s s' := by unfold SameButCase; decide
  exact ⟨h, by decide +kernel, tokenizeIn_sameReading .command h⟩

end PipeQuery

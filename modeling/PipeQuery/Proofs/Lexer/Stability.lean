import PipeQuery.Proofs.Lexer.Cuts

/-!
# Tokens do not depend on what follows them

To read a token the lexer may look far ahead: for a closing mark, for a third quote, for the digits
of an exponent. Still a token is read again where what stands behind it is cut off anywhere, or
where it is followed by a blank; and a gap is skipped again where the text behind it is cut off.

## Main definitions

* `Lexer.Blankless`: a class of characters without blanks
* `Lexer.Replaces`: a text that may stand behind a token in place of another
* `Lexer.Gapless`: a text at whose start nothing is skipped

## Main results

* `Lexer.scan_stable`: a token is read again when what stands behind it is replaced
* `Lexer.Gapless.replace`: where a token stands, no gap starts then
* `Lexer.trivia_cutOff`: a gap is skipped again when the text behind it is cut off
-/

namespace PipeQuery.Lexer

open Token (Kind)

variable {cs ds rest rest' : List Char} {cut : Cut} {p : Char → Bool} {l : Lexeme}

/-! ## Blanks -/

/-- No character behind the space is blank, up to the control characters behind ASCII. -/
theorem not_isBlank_of_lt {c : Char} (h : 0x20 < c.toNat) (h' : c.toNat < 0x85) :
    isBlank c = false := by
  have hranges : blankRanges.all (fun r => r.2 ≤ 0x20 || 0x85 ≤ r.1) = true := by decide
  rw [isBlank, List.any_eq_false]
  intro r hr hblank
  have hrange := List.all_eq_true.mp hranges r hr
  simp only [Bool.or_eq_true, Bool.and_eq_true, decide_eq_true_eq] at hrange hblank
  omega

theorem not_isBlank_of_isAlpha {c : Char} (h : c.isAlpha = true) : isBlank c = false := by
  have hletter : 65 ≤ c.toNat ∧ c.toNat ≤ 122 := by
    rcases (Bool.or_eq_true _ _).mp h with h | h
    · obtain ⟨hfirst, hlast⟩ := of_decide_eq_true h
      exact ⟨hfirst, Nat.le_trans hlast (by decide)⟩
    · obtain ⟨hfirst, hlast⟩ := (Bool.and_eq_true _ _).mp h
      exact ⟨Nat.le_trans (by decide) (of_decide_eq_true hfirst), of_decide_eq_true hlast⟩
  exact not_isBlank_of_lt (by omega) (by omega)

theorem not_isBlank_of_isDigit {c : Char} (h : c.isDigit = true) : isBlank c = false := by
  obtain ⟨hfirst, hlast⟩ := (Bool.and_eq_true _ _).mp h
  have hfirst : 48 ≤ c.toNat := of_decide_eq_true hfirst
  have hlast : c.toNat ≤ 57 := of_decide_eq_true hlast
  exact not_isBlank_of_lt (by omega) (by omega)

/-- The class `p` of characters has no blanks. -/
def Blankless (p : Char → Bool) : Prop := ∀ c, isBlank c = true → p c = false

theorem blankless_of_imp (h : ∀ c, p c = true → isBlank c = false) : Blankless p := by
  intro c hc
  rw [← Bool.not_eq_true]
  intro hp
  rw [h c hp] at hc
  cases hc

theorem Blankless.not_isBlank (h : Blankless p) {c : Char} (hc : p c = true) :
    isBlank c = false := by
  rw [← Bool.not_eq_true]
  intro hblank
  rw [h c hblank] at hc
  cases hc

theorem blankless_beq {d : Char} (hd : isBlank d = false) : Blankless (· == d) := by
  refine blankless_of_imp fun c hc => ?_
  rwa [eq_of_beq hc]

theorem blankless_isDigit : Blankless Char.isDigit :=
  blankless_of_imp fun _ => not_isBlank_of_isDigit

theorem blankless_isNameStart : Blankless isNameStart := by
  refine blankless_of_imp fun c hc => ?_
  simp only [isNameStart, Bool.or_eq_true, decide_eq_true_eq] at hc
  rcases hc with (hc | rfl) | rfl
  · exact not_isBlank_of_isAlpha hc
  · decide
  · decide

theorem blankless_isNamePart : Blankless isNamePart := by
  refine blankless_of_imp fun c hc => ?_
  simp only [isNamePart, Char.isAlphanum, Bool.or_eq_true, decide_eq_true_eq] at hc
  rcases hc with (hc | hc) | rfl
  · exact not_isBlank_of_isAlpha hc
  · exact not_isBlank_of_isDigit hc
  · decide

theorem blankless_isCommandPart : Blankless isCommandPart := by
  intro c hc
  simp [isCommandPart, hc]

theorem blankless_isSourcePart : Blankless isSourcePart := by
  intro c hc
  simp [isSourcePart, hc]

/-! ## What may stand behind a token -/

/-- A text `rest'` that may stand behind a token in place of `rest`: a first part of `rest`, or a
text that starts with a blank. -/
def Replaces (rest' rest : List Char) : Prop :=
  rest' <+: rest ∨ ∃ c ∈ rest'.head?, isBlank c = true

theorem replaces_nil (rest : List Char) : Replaces [] rest := .inl List.nil_prefix

theorem replaces_blank {c : Char} (hc : isBlank c = true) (cs rest : List Char) :
    Replaces (c :: cs) rest :=
  .inr ⟨c, rfl, hc⟩

/-- A mark at the start of `rest'` is one at the start of `rest`, unless it is a blank. -/
theorem Replaces.starts (h : Replaces rest' rest) {c : Char} (mark : List Char)
    (hc : isBlank c = false) (hm : c :: mark <+: rest') : c :: mark <+: rest := by
  rcases h with h | ⟨b, hb, hblank⟩
  · exact hm.trans h
  · obtain ⟨tail, rfl⟩ := hm
    obtain rfl := Option.some.inj hb
    rw [hc] at hblank
    cases hblank

/-- A class of characters that does not go on at `rest` does not go on at `rest'`. -/
theorem Replaces.forall_head? (h : Replaces rest' rest) (hp : Blankless p)
    (hrest : ∀ c ∈ rest.head?, p c = false) : ∀ c ∈ rest'.head?, p c = false := by
  intro c hc
  obtain ⟨tail, rfl⟩ := List.head?_eq_some_iff.mp hc
  cases hblank : isBlank c with
  | true => exact hp c hblank
  | false =>
    obtain ⟨tail, rfl⟩ := h.starts [] hblank ⟨tail, rfl⟩
    exact hrest c rfl

/-- A class of characters that does not go on behind a token does not do so when the text behind the
next piece is replaced. -/
theorem Replaces.forall_head?_append (h : Replaces rest' rest) (hp : Blankless p)
    (hall : ∀ c ∈ (ds ++ rest).head?, p c = false) : ∀ c ∈ (ds ++ rest').head?, p c = false := by
  cases ds with
  | nil => exact h.forall_head? hp hall
  | cons d ds => exact hall

/-- A mark without blanks at the start of the text before `rest'` is one at that of the text before
`rest`. -/
theorem Replaces.append_starts (h : Replaces rest' rest) {text mark : List Char}
    (hm : mark.any isBlank = false) (hp : mark <+: text ++ rest') :
    mark <+: text ++ rest := by
  obtain ⟨tail, htail⟩ := hp
  rcases List.append_eq_append_iff.mp htail with ⟨mid, rfl, rfl⟩ | ⟨mid, rfl, rfl⟩
  · exact ⟨mid ++ rest, by simp⟩
  · cases mid with
    | nil => simp
    | cons c mid =>
      have hc : isBlank c = false := by simpa using List.any_eq_false.mp hm c (by simp)
      exact (List.prefix_append_right_inj text).mpr (h.starts mid hc ⟨tail, rfl⟩)

/-! ## Shapes of tokens -/

theorem takeRun1_replaced (hp : Blankless p) (h : takeRun1 p cs = some cut)
    (hrest : Replaces rest' cut.2) : takeRun1 p (cut.1 ++ rest') = some (cut.1, rest') :=
  takeRun1_stable h (hrest.forall_head? hp (takeRun1_eq_some_iff.mp h).2.2.2)

/-- A name ends at its closing backtick, unless another one stands behind it. -/
theorem quotedNameTail_stable (h : quotedNameTail cs = some cut) (hrest : Replaces rest' cut.2) :
    quotedNameTail (cut.1 ++ rest') = some (cut.1, rest') := by
  fun_induction quotedNameTail cs generalizing cut with
  | case1 => cases h
  | case2 cs ih =>
    obtain ⟨inner, hi, rfl⟩ := Option.map_eq_some_iff.mp h
    simp [Cut.behind, quotedNameTail, ih hi hrest]
  | case3 cs hnext =>
    cases h
    refine quotedNameTail_close (hrest.forall_head? (blankless_beq rfl) fun c hc => ?_)
    obtain ⟨tail, rfl⟩ := List.head?_eq_some_iff.mp hc
    rw [beq_eq_false_iff_ne]
    rintro rfl
    exact hnext tail rfl rfl
  | case4 c cs _ hc ih =>
    obtain ⟨inner, hi, rfl⟩ := Option.map_eq_some_iff.mp h
    show quotedNameTail (c :: (inner.1 ++ rest')) = _
    rw [quotedNameTail_cons hc, ih hi hrest]
    rfl

theorem quotedName_stable (h : quotedName cs = some cut) (hrest : Replaces rest' cut.2) :
    quotedName (cut.1 ++ rest') = some (cut.1, rest') := by
  unfold quotedName at h
  split at h
  · obtain ⟨inner, hi, rfl⟩ := Option.map_eq_some_iff.mp h
    simp [Cut.behind, quotedName, quotedNameTail_stable hi hrest]
  · cases h

theorem stringLiteral_stable (h : stringLiteral cs = some cut) (hrest : Replaces rest' cut.2) :
    stringLiteral (cut.1 ++ rest') = some (cut.1, rest') := by
  have happend := (stringLiteral_append h).1
  rcases Option.or_eq_some_iff.mp h with h | ⟨hnone, h⟩
  · exact Option.or_eq_some_iff.mpr (.inl (tripleQuoted_stable h rest'))
  · refine Option.or_eq_some_iff.mpr (.inr ⟨?_, doubleQuoted_stable h rest'⟩)
    rcases hrest with hprefix | hblank
    · refine tripleQuoted_cutOff hnone ?_
      rw [← happend]
      exact (List.prefix_append_right_inj cut.1).mpr hprefix
    · by_contra hsome
      obtain ⟨_, htriple⟩ := Option.ne_none_iff_exists'.mp hsome
      -- A blank stands behind the closing quote, so all three quotes would be in the string.
      have hreplaces : Replaces rest' [] := .inr hblank
      have hmark := hreplaces.append_starts (by decide) (tripleQuoted_starts htriple)
      rw [List.append_nil] at hmark
      have hempty := doubleQuoted_starts h (List.IsPrefix.trans (by simp) hmark)
      rw [hempty] at hmark
      revert hmark
      decide

/-- An exponent ends at its last digit, unless a digit stands behind it. -/
theorem exponent_stable (h : exponent cs = some cut) (hrest : Replaces rest' cut.2) :
    exponent (cut.1 ++ rest') = some (cut.1, rest') := by
  obtain ⟨c, sign, d, ds, hhead, hd, htaken, hdigits⟩ := exponent_inv h
  obtain ⟨-, -, -, hstop⟩ := takeRun1_eq_some_iff.mp hdigits
  have hstable : digits (d :: ds ++ rest') = some (d :: ds, rest') :=
    takeRun1_stable hdigits (hrest.forall_head? blankless_isDigit hstop)
  have happend : cut.1 ++ rest' = c :: (sign ++ d :: (ds ++ rest')) := by simp [htaken]
  rw [happend, exponent_eq hhead hd, ← List.cons_append, hstable, htaken]
  rfl

/-- Where no exponent starts, none starts after what stands there has been replaced. -/
theorem exponent_eq_none (h : exponent rest = none) (hrest : Replaces rest' rest) :
    exponent rest' = none := by
  by_contra hsome
  obtain ⟨cut, hcut⟩ := Option.ne_none_iff_exists'.mp hsome
  obtain ⟨c, sign, d, ds, hhead, hd, htaken, -⟩ := exponent_inv hcut
  have hblank : isBlank c = false := by
    rcases hhead.1 with rfl | rfl <;> decide
  have hstarts : c :: (sign ++ d :: ds) <+: rest' := ⟨cut.2, htaken ▸ (exponent_append hcut).1⟩
  obtain ⟨tail, rfl⟩ := hrest.starts _ hblank hstarts
  rw [List.cons_append, List.append_assoc, List.cons_append, exponent_eq hhead hd,
    Option.map_eq_none_iff, digits, takeRun1_eq_none_iff] at h
  have hdigit := h d rfl
  rw [hd] at hdigit
  cases hdigit

/-- What may be left out is found again, or left out again. -/
theorem optional_exponent_stable (cs : List Char)
    (hrest : Replaces rest' (optional exponent cs).2) :
    optional exponent ((optional exponent cs).1 ++ rest') = ((optional exponent cs).1, rest') := by
  cases h : exponent cs with
  | some cut =>
    rw [optional_eq_of_some h] at hrest ⊢
    exact optional_eq_of_some (exponent_stable h hrest)
  | none =>
    rw [optional_eq_of_none h] at hrest ⊢
    exact optional_eq_of_none (exponent_eq_none h hrest)

theorem fraction_stable (cs : List Char) (hrest : Replaces rest' (fraction cs).2) :
    fraction ((fraction cs).1 ++ rest') = ((fraction cs).1, rest') := by
  have hexponent := optional_exponent_stable _ hrest
  have happend : (optional exponent (optional digits cs).2).1 ++ (fraction cs).2 =
      (optional digits cs).2 := optional_append fun _ h => (exponent_append h).1
  -- Neither the exponent nor what stands behind it starts with a digit.
  have hdigits := optional_digits_stable cs (hrest.forall_head?_append blankless_isDigit
    (happend.symm ▸ optional_digits_stop cs))
  simp only [fraction, Cut.behind, List.append_assoc] at hexponent hdigits ⊢
  rw [hdigits, hexponent]

/-- Behind its first digits a number goes on as before. -/
theorem numberAfter_stable (ds cs : List Char) (hrest : Replaces rest' (numberAfter ds cs).rest) :
    ∃ part, (numberAfter ds cs).text = ds ++ part ∧
      numberAfter ds (part ++ rest') = (numberAfter ds cs).before rest' := by
  -- Without a point nothing but an exponent may stand behind the digits.
  by_cases hpoint : ∀ c ∈ cs.head?, (c == '.') = false
  · rw [numberAfter_of_ne ds hpoint] at hrest ⊢
    cases hexponent : exponent cs with
    | some cut =>
      have hrest : Replaces rest' cut.2 := by rwa [hexponent] at hrest
      have hstop : ∀ c ∈ (cut.1 ++ cut.2).head?, (c == '.') = false := by
        rwa [(exponent_append hexponent).1]
      refine ⟨cut.1, rfl, ?_⟩
      rw [numberAfter_of_ne ds (hrest.forall_head?_append (blankless_beq rfl) hstop),
        exponent_stable hexponent hrest]
      rfl
    | none =>
      have hrest : Replaces rest' cs := by rwa [hexponent] at hrest
      refine ⟨[], (List.append_nil ds).symm, ?_⟩
      rw [List.nil_append, numberAfter_of_ne ds (hrest.forall_head? (blankless_beq rfl) hpoint),
        exponent_eq_none hexponent hrest]
      rfl
  · obtain ⟨cs, rfl⟩ : ∃ tail, cs = '.' :: tail := by
      cases cs with
      | nil => simp at hpoint
      | cons c cs => exact ⟨cs, by simpa using hpoint⟩
    rw [numberAfter_point] at hrest ⊢
    refine ⟨'.' :: (fraction cs).1, by simp [Cut.behind, Cut.lexeme], ?_⟩
    rw [List.cons_append, numberAfter_point, fraction_stable cs hrest]
    rfl

theorem number_stable (h : number cs = some l) (hrest : Replaces rest' l.rest) :
    number (l.text ++ rest') = some (l.before rest') := by
  obtain ⟨cut, hcut, rfl⟩ := Option.map_eq_some_iff.mp h
  obtain ⟨part, htext, hnumber⟩ := numberAfter_stable cut.1 cut.2 hrest
  obtain ⟨-, hne, -, hstop⟩ := takeRun1_eq_some_iff.mp hcut
  have hpart : part ++ (numberAfter cut.1 cut.2).rest = cut.2 := by
    have hstarts : (numberAfter cut.1 cut.2).Starts (cut.1 ++ cut.2) := numberAfter_starts hne
    have hstarts := hstarts.1
    rwa [htext, List.append_assoc, List.append_cancel_left_eq] at hstarts
  have hdigits : digits (cut.1 ++ (part ++ rest')) = some (cut.1, part ++ rest') :=
    takeRun1_stable hcut (hrest.forall_head?_append blankless_isDigit (by rwa [hpart]))
  rw [htext, List.append_assoc, number, hdigits]
  exact congrArg some hnumber

theorem identifier_stable (h : identifier cs = some cut) (hrest : Replaces rest' cut.2) :
    identifier (cut.1 ++ rest') = some (cut.1, rest') := by
  obtain ⟨c, tail, rfl, hc, rfl⟩ := identifier_inv h
  obtain ⟨hall, hstop⟩ := forall_takeRun isNamePart tail
  have hrun : takeRun isNamePart ((takeRun isNamePart tail).1 ++ rest') =
      ((takeRun isNamePart tail).1, rest') :=
    takeRun_append_eq hall (hrest.forall_head? blankless_isNamePart hstop)
  show identifier (c :: ((takeRun isNamePart tail).1 ++ rest')) = _
  rw [identifier, if_pos hc, hrun]
  rfl

/-- Only `=` makes a mark longer, so a mark is found again where it stands behind none, or behind
one that it stood behind before. -/
theorem operator_again (h : operator cs = some l)
    (hrest : rest'.head? = some '=' → l.rest.head? = some '=') :
    operator (l.text ++ rest') = some (l.before rest') := by
  have hequal (hne : ∀ tail, l.rest ≠ '=' :: tail) (tail : List Char) : rest' ≠ '=' :: tail := by
    rintro rfl
    obtain ⟨tail, htail⟩ := List.head?_eq_some_iff.mp (hrest rfl)
    exact hne tail htail
  unfold operator at h
  split at h <;> cases h
  case h_5 hne | h_6 hne | h_7 hne =>
    have hne := hequal fun tail => hne tail
    unfold Lexeme.before operator
    split <;> simp_all
  all_goals rfl

theorem operator_stable (h : operator cs = some l) (hrest : Replaces rest' l.rest) :
    operator (l.text ++ rest') = some (l.before rest') := by
  refine operator_again h fun hhead => ?_
  obtain ⟨tail, rfl⟩ := List.head?_eq_some_iff.mp hhead
  obtain ⟨tail, htail⟩ := hrest.starts [] (by decide) ⟨tail, rfl⟩
  rw [← htail]
  rfl

/-! ## Tokens -/

/-- A token of a class is read again, if the class is one of cuts. -/
theorem map_lexeme_stable {part : List Char → Option Cut} (kind : List Char → Kind)
    (hpart : ∀ {cut : Cut}, part cs = some cut → Replaces rest' cut.2 →
      part (cut.1 ++ rest') = some (cut.1, rest'))
    (h : ((part cs).map fun cut => cut.lexeme (kind cut.1)) = some l)
    (hrest : Replaces rest' l.rest) :
    ((part (l.text ++ rest')).map fun cut => cut.lexeme (kind cut.1)) = some (l.before rest') := by
  obtain ⟨cut, hcut, rfl⟩ := Option.map_eq_some_iff.mp h
  show (part (cut.1 ++ rest')).map _ = _
  rw [hpart hcut hrest]
  rfl

theorem commandWord_stable (h : commandWord cs = some l) (hrest : Replaces rest' l.rest) :
    commandWord (l.text ++ rest') = some (l.before rest') :=
  map_lexeme_stable (fun word => (commandKeyword? word).getD .unknownCmd)
    (takeRun1_replaced blankless_isCommandPart) h hrest

theorem expressionWord_stable (h : expressionWord cs = some l) (hrest : Replaces rest' l.rest) :
    expressionWord (l.text ++ rest') = some (l.before rest') :=
  map_lexeme_stable (fun word => (expressionKeyword? word).getD .name) identifier_stable h hrest

theorem sourceWord_stable (h : sourceWord cs = some l) (hrest : Replaces rest' l.rest) :
    sourceWord (l.text ++ rest') = some (l.before rest') :=
  map_lexeme_stable (fun _ => .sourceName) (takeRun1_replaced blankless_isSourcePart) h hrest

theorem orCause_of_some {cause : Cause} {o : Option Lexeme} (h : o = some l) :
    orCause cause o = .ok l := by
  rw [h]
  rfl

/-- The first character of a text decides which class is looked at, and it is that of the token. -/
theorem head?_of_scan {m : Mode} (h : scan m cs = .ok l) (rest' : List Char) :
    cs.head? = (l.text ++ rest').head? := by
  obtain ⟨htext, hne⟩ := scan_starts h
  obtain ⟨c, text, hc⟩ := List.exists_cons_of_ne_nil hne
  rw [← htext, hc]
  rfl

theorem scan_command_stable (h : scan .command cs = .ok l) (hrest : Replaces rest' l.rest) :
    scan .command (l.text ++ rest') = .ok (l.before rest') := by
  have hhead := head?_of_scan h rest'
  have h := orCause_eq_ok h
  rw [Option.or_eq_some_iff, commandMark_eq_none_iff, hhead, ← commandMark_eq_none_iff] at h
  refine orCause_of_some (Option.or_eq_some_iff.mpr ?_)
  rcases h with h | ⟨hmark, h⟩
  · exact .inl (commandMark_stable h rest')
  · exact .inr ⟨hmark, commandWord_stable h hrest⟩

theorem scan_expression_stable (h : scan .expression cs = .ok l) (hrest : Replaces rest' l.rest) :
    scan .expression (l.text ++ rest') = .ok (l.before rest') := by
  have hhead := head?_of_scan h rest'
  -- The first character stays, so the same classes are tried, and those before fail again.
  rw [scan, hhead] at h
  rw [scan]
  split at h
  · rename_i hquote
    rw [if_pos hquote]
    exact orCause_of_some (map_lexeme_stable (fun _ => .string) stringLiteral_stable
      (orCause_eq_ok h) hrest)
  rename_i hquote
  rw [if_neg hquote]
  split at h
  · rename_i htick
    rw [if_pos htick]
    exact orCause_of_some (map_lexeme_stable (fun _ => .quotedName) quotedName_stable
      (orCause_eq_ok h) hrest)
  rename_i htick
  rw [if_neg htick]
  have h := orCause_eq_ok h
  rw [Option.or_eq_some_iff, Option.or_eq_some_iff, number_eq_none_iff,
    expressionWord_eq_none_iff, hhead, ← number_eq_none_iff, ← expressionWord_eq_none_iff] at h
  refine orCause_of_some ?_
  rw [Option.or_eq_some_iff, Option.or_eq_some_iff]
  rcases h with h | ⟨hnumber, h | ⟨hword, h⟩⟩
  · exact .inl (number_stable h hrest)
  · exact .inr ⟨hnumber, .inl (expressionWord_stable h hrest)⟩
  · exact .inr ⟨hnumber, .inr ⟨hword, operator_stable h hrest⟩⟩

theorem scan_source_stable (h : scan .source cs = .ok l) (hrest : Replaces rest' l.rest) :
    scan .source (l.text ++ rest') = .ok (l.before rest') := by
  have hhead := head?_of_scan h rest'
  rw [scan, hhead] at h
  rw [scan]
  split at h
  · rename_i htick
    rw [if_pos htick]
    exact orCause_of_some (map_lexeme_stable (fun _ => .quotedSourceName) quotedName_stable
      (orCause_eq_ok h) hrest)
  rename_i htick
  rw [if_neg htick]
  have h := orCause_eq_ok h
  rw [Option.or_eq_some_iff, sourceMark_eq_none_iff, hhead, ← sourceMark_eq_none_iff] at h
  refine orCause_of_some (Option.or_eq_some_iff.mpr ?_)
  rcases h with h | ⟨hmark, h⟩
  · exact .inl (sourceMark_stable h rest')
  · exact .inr ⟨hmark, sourceWord_stable h hrest⟩

/-- **A token is read again where what stands behind it is cut off or starts with a blank.** -/
theorem scan_stable {m : Mode} (h : scan m cs = .ok l) (hrest : Replaces rest' l.rest) :
    scan m (l.text ++ rest') = .ok (l.before rest') := by
  cases m with
  | command => exact scan_command_stable h hrest
  | expression => exact scan_expression_stable h hrest
  | source => exact scan_source_stable h hrest

/-! ## Gaps -/

/-- Neither a blank nor a comment starts here, be the comment closed or not. -/
def Gapless (cs : List Char) : Prop :=
  (∀ c ∈ cs.head?, isLayout c = false) ∧ ¬ ['/', '/'] <+: cs ∧ ¬ ['/', '*'] <+: cs

theorem gapless_iff : Gapless cs ↔ triviaPiece cs = none ∧ opensComment cs = false := by
  rw [Gapless, triviaPiece, Option.or_eq_none_iff, Option.or_eq_none_iff, takeRun1_eq_none_iff,
    lineComment_eq_none_iff, opensComment_eq_false_iff]
  constructor
  · rintro ⟨hlayout, hline, hblock⟩
    exact ⟨⟨hlayout, hline, blockComment_eq_none hblock⟩, hblock⟩
  · rintro ⟨⟨hlayout, hline, -⟩, hblock⟩
    exact ⟨hlayout, hline, hblock⟩

/-- Where a gap ends, and no open comment stands, nothing more is skipped. -/
theorem gapless_of_trivia {gap : List Char} (hgap : trivia cs = (gap, rest))
    (hopen : opensComment rest = false) : Gapless rest :=
  gapless_iff.mpr ⟨triviaPiece_of_trivia hgap, hopen⟩

/-- Where a token stands, no gap starts when what stands behind it is replaced. -/
theorem Gapless.replace {text : List Char} (h : Gapless (text ++ rest)) (hne : text ≠ [])
    (hrest : Replaces rest' rest) : Gapless (text ++ rest') := by
  obtain ⟨hlayout, hline, hblock⟩ := h
  obtain ⟨c, text, rfl⟩ := List.exists_cons_of_ne_nil hne
  exact ⟨hlayout, fun hp => hline (hrest.append_starts (by decide) hp),
    fun hp => hblock (hrest.append_starts (by decide) hp)⟩

theorem Gapless.trivia_eq (h : Gapless cs) : trivia cs = ([], cs) :=
  trivia_of_none (gapless_iff.mp h).1

/-- A blank run or a comment is found again in front of a first part of what stood behind it. -/
theorem triviaPiece_stable (h : triviaPiece cs = some cut) (hrest : rest' <+: cut.2) :
    triviaPiece (cut.1 ++ rest') = some (cut.1, rest') := by
  have hhead {p : Char → Bool} (hstop : ∀ c ∈ cut.2.head?, p c = false) :
      ∀ c ∈ rest'.head?, p c = false := by
    obtain ⟨tail, htail⟩ := hrest
    cases rest' with
    | nil => simp
    | cons c rest' => rwa [← htail] at hstop
  rw [triviaPiece, Option.or_eq_some_iff, Option.or_eq_some_iff] at h
  rcases h with h | ⟨-, h | ⟨-, h⟩⟩
  · rw [triviaPiece, takeRun1_stable h (hhead (takeRun1_eq_some_iff.mp h).2.2.2), Option.some_or]
  · unfold lineComment at h
    split at h <;> cases h
    rename_i cs
    obtain ⟨hall, hstop⟩ := forall_takeRun (fun c => c != '\n' && c != '\r') cs
    have hrun := takeRun_append_eq hall (hhead hstop)
    simp [Cut.behind, triviaPiece, takeRun1, isLayout, lineComment, hrun]
  · have hblock := blockComment_stable h rest'
    unfold blockComment at h
    split at h
    · obtain ⟨inner, -, rfl⟩ := Option.map_eq_some_iff.mp h
      rw [triviaPiece, hblock]
      simp [Cut.behind, takeRun1, isLayout, lineComment]
    · cases h

/-- Where no blank run or comment starts, none starts after the text has been cut off. -/
theorem triviaPiece_cutOff (h : triviaPiece cs = none) (hp : ds <+: cs) :
    triviaPiece ds = none := by
  rw [triviaPiece, Option.or_eq_none_iff, Option.or_eq_none_iff, takeRun1_eq_none_iff,
    lineComment_eq_none_iff] at h ⊢
  obtain ⟨hlayout, hline, hblock⟩ := h
  refine ⟨?_, fun hmark => hline (hmark.trans hp), ?_⟩
  · intro c hc
    obtain ⟨tail, rfl⟩ := hp
    exact hlayout c (by rw [List.head?_append, hc, Option.some_or]; rfl)
  · by_contra hsome
    obtain ⟨cut, hcut⟩ := Option.ne_none_iff_exists'.mp hsome
    obtain ⟨tail, rfl⟩ := hp
    have hstable := blockComment_stable hcut (cut.2 ++ tail)
    rw [← List.append_assoc, (blockComment_append hcut).1, hblock] at hstable
    cases hstable

theorem trivia_cutOff (cs : List Char) (hrest : rest' <+: (trivia cs).2) :
    trivia ((trivia cs).1 ++ rest') = ((trivia cs).1, rest') := by
  induction cs using trivia.induct with
  | case1 cs piece rest h ih =>
    rw [trivia_of_piece h] at hrest ⊢
    have hrest' : (trivia rest).1 ++ rest' <+: rest := by
      have hprefix := (List.prefix_append_right_inj (trivia rest).1).mpr hrest
      have happend : (trivia rest).1 ++ (Cut.behind piece (trivia rest)).2 = rest :=
        trivia_append rest
      rwa [happend] at hprefix
    have hpiece := triviaPiece_stable h hrest'
    simp only [Cut.behind, List.append_assoc] at hpiece hrest ⊢
    rw [trivia_of_piece hpiece, ih hrest]
    rfl
  | case2 cs h =>
    rw [trivia_of_none h] at hrest ⊢
    exact trivia_of_none (triviaPiece_cutOff h hrest)

end PipeQuery.Lexer

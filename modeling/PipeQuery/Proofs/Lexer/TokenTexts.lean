import PipeQuery.Proofs.Lexer.LetterCase
import PipeQuery.Proofs.Lexer.Quoting
import PipeQuery.Proofs.Lexer.Readings

/-!
# Longest token texts

The texts of tokens, mode by mode, are told without the recognisers: marks, words, names, numbers
and operators. The recognisers commit to what they find first; still each finds the longest text of
a token that stands at the start of the input. A text is told by its first character to be of one
class, and within a class a longer text would go on where the recogniser had to stop.

## Main definitions

* `Lexer.IsNumber`, `Lexer.IsIdentifier`, `Lexer.IsWord`, `Lexer.IsQuotedName`, `Lexer.operators`:
  the classes of texts
* `Lexer.TokenText`: the texts of the tokens of a mode
* `Lexer.LongestAt`: the longest text with a property at the start of another
* `Lexer.Shape`: the class that the first character of a text tells

## Main results

* `Lexer.number_longest`, `Lexer.quotedName_longest`, `Lexer.operator_longest`, ...: the recognisers
  find longest texts
* `Lexer.scan_longest`: a token that is read is the longest one of its mode
-/

namespace PipeQuery.Lexer

open Quoted
open Token (Kind)

/-! ## Classes of texts -/

/-- A row of digits. -/
def IsDigits (cs : List Char) : Prop := cs ≠ [] ∧ ∀ c ∈ cs, c.isDigit = true

/-- A point and the digits behind it, which may be missing if `bare`. -/
def IsFraction (bare : Bool) (cs : List Char) : Prop :=
  ∃ ds, cs = '.' :: ds ∧ (IsDigits ds ∨ bare = true ∧ ds = [])

/-- The letter of an exponent, perhaps a sign, and digits. -/
def IsExponent (cs : List Char) : Prop :=
  ∃ c sign ds, cs = c :: (sign ++ ds) ∧ IsExponentHead c sign ∧ IsDigits ds

/-- Digits, perhaps a point with digits behind it, and perhaps an exponent. If `bare`, the digits
behind the point may be missing. -/
def IsNumber (bare : Bool) (cs : List Char) : Prop :=
  ∃ whole fraction exponent, cs = whole ++ (fraction ++ exponent) ∧ IsDigits whole ∧
    (fraction = [] ∨ IsFraction bare fraction) ∧ (exponent = [] ∨ IsExponent exponent)

/-- A letter, `_` or `@`, and behind it letters, digits and `_`. -/
def IsIdentifier (cs : List Char) : Prop :=
  ∃ c tail, cs = c :: tail ∧ (c.isAlpha = true ∨ c = '_' ∨ c = '@') ∧
    ∀ d ∈ tail, d.isAlphanum = true ∨ d = '_'

/-- A text in backticks, with its own backticks doubled. -/
def IsQuotedName (cs : List Char) : Prop := ∃ name, cs = mark ['\x60'] (double name)

/-- Some characters, none of which is blank or among `excluded`. -/
def IsWord (excluded cs : List Char) : Prop :=
  cs ≠ [] ∧ ∀ c ∈ cs, isBlank c = false ∧ c ∉ excluded

/-- The operators and punctuation marks of expressions. -/
def operators : List (List Char) :=
  ["==", "!=", "<=", ">=", "<", ">", "=", "+", "-", "*", "/", "%", "(", ")", ",", ".", "[", "]",
    "|"].map String.toList

/-- The texts of tokens, strings apart. Where `bare` is set, a number may end with its point, or
have an exponent right behind it. -/
inductive TokenText (bare : Bool) : Mode → List Char → Prop
  | commandMark {c : Char} (h : c ∈ ['|', '[', ']']) : TokenText bare .command [c]
  | commandWord {cs : List Char} (h : IsWord ['[', ']', '/', '|'] cs) : TokenText bare .command cs
  | number {cs : List Char} (h : IsNumber bare cs) : TokenText bare .expression cs
  | identifier {cs : List Char} (h : IsIdentifier cs) : TokenText bare .expression cs
  | quotedName {cs : List Char} (h : IsQuotedName cs) : TokenText bare .expression cs
  | operator {cs : List Char} (h : cs ∈ operators) : TokenText bare .expression cs
  | sourceMark {c : Char} (h : c ∈ [',', '=', '|', '[', ']']) : TokenText bare .source [c]
  | sourceWord {cs : List Char} (h : IsWord ['=', '\x60', '|', ',', '[', ']', '/'] cs) :
    TokenText bare .source cs
  | quotedSourceName {cs : List Char} (h : IsQuotedName cs) : TokenText bare .source cs

/-- Of the texts at the start of `cs` with the property `P`, the longest is `text`. -/
structure LongestAt (P : List Char → Prop) (cs text : List Char) : Prop where
  holds : P text
  starts : text <+: cs
  longest : ∀ other, P other → other <+: cs → other.length ≤ text.length

variable {m : Mode} {cs ds text more rest rest' : List Char} {cut : Cut} {l : Lexeme}
  {p : Char → Bool}

/-! ## Runs -/

/-- A text of a class of characters does not go on where a run of that class stops. -/
theorem length_le_of_run (hall : ∀ c ∈ text, p c = true) (hstop : ∀ c ∈ rest.head?, p c = false)
    (hp : text <+: ds ++ rest) : text.length ≤ ds.length := by
  by_contra hlong
  obtain ⟨tail, rfl⟩ : ds <+: text :=
    List.prefix_of_prefix_length_le (List.prefix_append ds rest) hp (by omega)
  obtain ⟨c, tail, rfl⟩ : ∃ c tail', tail = c :: tail' :=
    List.exists_cons_of_ne_nil (by rintro rfl; simp at hlong)
  obtain ⟨behind, rfl⟩ := (List.prefix_append_right_inj ds).mp hp
  have hc := hall c (by simp)
  rw [hstop c rfl] at hc
  cases hc

/-- There is one place where a run stops. -/
theorem run_unique (hall : ∀ c ∈ ds, p c = true) (hstop : ∀ c ∈ rest.head?, p c = false)
    (hall' : ∀ c ∈ text, p c = true) (hstop' : ∀ c ∈ rest'.head?, p c = false)
    (h : text ++ rest' = ds ++ rest) : text = ds ∧ rest' = rest := by
  have hrun := takeRun_append_eq hall' hstop'
  rw [h, takeRun_append_eq hall hstop] at hrun
  cases hrun
  exact ⟨rfl, rfl⟩

/-- Where something of another class stands behind a run, it starts where the run stops. -/
theorem prefix_behind_run (hall : ∀ c ∈ ds, p c = true) (hstop : ∀ c ∈ rest.head?, p c = false)
    (hall' : ∀ c ∈ text, p c = true) {c : Char} (hc : p c = false)
    (hp : text ++ c :: more <+: ds ++ rest) : text = ds ∧ c :: more <+: rest := by
  obtain ⟨tail, htail⟩ := hp
  rw [List.append_assoc] at htail
  have hstop' : ∀ d ∈ (c :: more ++ tail).head?, p d = false := by
    rintro d ⟨⟩
    exact hc
  obtain ⟨rfl, rfl⟩ := run_unique hall hstop hall' hstop' htail
  exact ⟨rfl, List.prefix_append _ _⟩

/-! ## Numbers -/

theorem IsExponent.exists_cons (h : IsExponent cs) :
    ∃ c tail, cs = c :: tail ∧ c.isDigit = false ∧ c ≠ '.' := by
  obtain ⟨c, sign, ds, rfl, ⟨hc, -⟩, -⟩ := h
  refine ⟨c, sign ++ ds, rfl, ?_⟩
  rcases hc with rfl | rfl <;> decide

/-- An exponent that stands at the start of a text is found, or a longer one. -/
theorem exponent_longest (h : IsExponent text) (hp : text <+: cs) :
    ∃ cut, exponent cs = some cut ∧ text.length ≤ cut.1.length := by
  obtain ⟨c, sign, ds, rfl, hhead, hne, hall⟩ := h
  obtain ⟨tail, rfl⟩ := hp
  obtain ⟨d, ds, rfl⟩ := List.exists_cons_of_ne_nil hne
  have hd : d.isDigit = true := hall d (by simp)
  -- The run of digits behind the sign is not empty.
  obtain ⟨cut, hcut⟩ : ∃ cut, digits (d :: (ds ++ tail)) = some cut := by
    apply Option.ne_none_iff_exists'.mp
    intro hnone
    have := takeRun1_eq_none_iff.mp hnone d rfl
    rw [hd] at this
    cases this
  obtain ⟨happend, -, -, hstop⟩ := takeRun1_eq_some_iff.mp hcut
  refine ⟨cut.behind (c :: sign), ?_, ?_⟩
  · have heq : exponent (c :: (sign ++ d :: (ds ++ tail))) =
        (digits (d :: (ds ++ tail))).map (Cut.behind (c :: sign)) :=
      exponent_eq hhead hd
    rw [hcut] at heq
    simpa using heq
  · have hp : d :: ds <+: cut.1 ++ cut.2 := ⟨tail, happend⟩
    have hle := length_le_of_run hall hstop hp
    simp only [Cut.behind, List.length_cons, List.length_append] at hle ⊢
    omega

theorem exponent_isExponent (h : exponent cs = some cut) : IsExponent cut.1 := by
  obtain ⟨c, sign, d, ds, hhead, -, htaken, hdigits⟩ := exponent_inv h
  obtain ⟨-, hne, hall, -⟩ := takeRun1_eq_some_iff.mp hdigits
  exact ⟨c, sign, d :: ds, htaken, hhead, hne, hall⟩

theorem forall_optional_digits (cs : List Char) :
    ∀ c ∈ (optional digits cs).1, c.isDigit = true := by
  cases h : digits cs with
  | some cut =>
    rw [optional_eq_of_some h]
    exact (takeRun1_eq_some_iff.mp h).2.2.1
  | none =>
    rw [optional_eq_of_none h]
    exact List.forall_mem_nil _

/-- Behind a point, the longest run of digits is taken, and the longest exponent behind it. -/
theorem fraction_longest {exp : List Char} (hall : ∀ c ∈ ds, c.isDigit = true)
    (hexp : exp = [] ∨ IsExponent exp) (hp : ds ++ exp <+: cs) :
    (ds ++ exp).length ≤ (fraction cs).1.length := by
  have happend : (optional digits cs).1 ++ (optional digits cs).2 = cs :=
    optional_append fun _ h => (takeRun1_append h).1
  rw [← happend] at hp
  simp only [fraction, Cut.behind, List.length_append]
  rcases hexp with rfl | hexp
  · rw [List.append_nil] at hp
    have hle := length_le_of_run hall (optional_digits_stop cs) hp
    rw [List.length_nil]
    omega
  · obtain ⟨c, tail, rfl, hc, -⟩ := hexp.exists_cons
    obtain ⟨hds, hexpHere⟩ :=
      prefix_behind_run (forall_optional_digits cs) (optional_digits_stop cs) hall hc hp
    obtain ⟨cut, hcut, hle⟩ := exponent_longest hexp hexpHere
    rw [optional_eq_of_some hcut, hds]
    omega

theorem exists_numberAfter_text (ds rest : List Char) :
    ∃ more, (numberAfter ds rest).text = ds ++ more := by
  unfold numberAfter
  split
  · exact ⟨_, List.append_assoc ..⟩
  · split
    · exact ⟨_, rfl⟩
    · exact ⟨[], (List.append_nil ds).symm⟩

/-- What goes on as a number behind its first digits is taken with them. -/
theorem numberAfter_longest {frac exp : List Char} (hfrac : frac = [] ∨ IsFraction true frac)
    (hexp : exp = [] ∨ IsExponent exp) (hp : frac ++ exp <+: rest) :
    (ds ++ (frac ++ exp)).length ≤ (numberAfter ds rest).text.length := by
  rcases hfrac with rfl | ⟨fs, rfl, hfs⟩
  · rcases hexp with rfl | hexp
    · obtain ⟨more, hmore⟩ := exists_numberAfter_text ds rest
      simp [hmore]
    · obtain ⟨cut, hcut, hle⟩ := exponent_longest hexp hp
      obtain ⟨c, tail, rfl, -, hpoint⟩ := hexp.exists_cons
      obtain ⟨behind, rfl⟩ := hp
      -- An exponent starts with a letter, so there is no point to take.
      have hne : ∀ d ∈ (c :: tail ++ behind).head?, (d == '.') = false := by
        rintro d ⟨⟩
        simpa using hpoint
      rw [List.nil_append] at hcut ⊢
      rw [numberAfter_of_ne ds hne, hcut]
      simp only [Cut.lexeme, Cut.behind, List.length_append]
      omega
  · obtain ⟨behind, rfl⟩ := hp
    have hall : ∀ c ∈ fs, c.isDigit = true := by
      rcases hfs with hfs | ⟨-, rfl⟩
      · exact hfs.2
      · exact List.forall_mem_nil _
    have hprefix : fs ++ exp <+: fs ++ exp ++ behind := List.prefix_append _ _
    have hle := fraction_longest hall hexp hprefix
    simp only [List.cons_append, numberAfter_point, Cut.lexeme, Cut.behind, List.length_append,
      List.length_cons, List.length_nil] at hle ⊢
    omega

theorem number_longest (h : number cs = some l) (ht : IsNumber true text) (hp : text <+: cs) :
    text.length ≤ l.text.length := by
  obtain ⟨⟨ds, rest⟩, hcut, rfl⟩ := Option.map_eq_some_iff.mp h
  obtain ⟨rfl, -, hall, hstop⟩ := takeRun1_eq_some_iff.mp hcut
  obtain ⟨whole, frac, exp, rfl, ⟨-, hwhole⟩, hfrac, hexp⟩ := ht
  by_cases hmore : frac ++ exp = []
  · obtain ⟨more, htext⟩ := exists_numberAfter_text ds rest
    rw [hmore, List.append_nil] at hp ⊢
    have hle := length_le_of_run hwhole hstop hp
    rw [htext, List.length_append]
    omega
  · -- A point or the letter of an exponent ends the first digits.
    obtain ⟨c, tail, hcons, hc⟩ : ∃ c tail, frac ++ exp = c :: tail ∧ c.isDigit = false := by
      rcases hfrac with rfl | ⟨fs, rfl, -⟩
      · obtain ⟨c, tail, hexp, hc, -⟩ := (hexp.resolve_left hmore).exists_cons
        exact ⟨c, tail, hexp, hc⟩
      · exact ⟨'.', fs ++ exp, rfl, rfl⟩
    rw [hcons] at hp
    obtain ⟨rfl, hbehind⟩ := prefix_behind_run hall hstop hwhole hc hp
    rw [← hcons] at hbehind
    exact numberAfter_longest hfrac hexp hbehind

/-- The optional digits behind a point. -/
theorem optional_digits_isFraction (cs : List Char) :
    IsFraction true ('.' :: (optional digits cs).1) := by
  refine ⟨_, rfl, ?_⟩
  by_cases hnil : (optional digits cs).1 = []
  · exact .inr ⟨rfl, hnil⟩
  · exact .inl ⟨hnil, forall_optional_digits cs⟩

theorem optional_exponent_isExponent (cs : List Char) :
    (optional exponent cs).1 = [] ∨ IsExponent (optional exponent cs).1 := by
  cases h : exponent cs with
  | some cut =>
    rw [optional_eq_of_some h]
    exact .inr (exponent_isExponent h)
  | none =>
    rw [optional_eq_of_none h]
    exact .inl rfl

/-- Somewhere in the text an exponent ends it. -/
def HasExponent (cs : List Char) : Prop := ∃ front exp, cs = front ++ exp ∧ IsExponent exp

/-- A number is taken as an integer, which is a row of digits, or as a decimal number, which has a
point or an exponent. -/
theorem numberAfter_isNumber (hds : IsDigits ds) (rest : List Char) :
    (numberAfter ds rest).kind = .integer ∧ IsDigits (numberAfter ds rest).text ∨
    (numberAfter ds rest).kind = .decimal ∧ IsNumber true (numberAfter ds rest).text ∧
      ('.' ∈ (numberAfter ds rest).text ∨ HasExponent (numberAfter ds rest).text) := by
  unfold numberAfter
  split
  · rename_i cs
    have htext : ((Cut.behind (ds ++ ['.']) (fraction cs)).lexeme .decimal).text =
        ds ++ (('.' :: (optional digits cs).1) ++
          (optional exponent (optional digits cs).2).1) := by
      simp [Cut.lexeme, Cut.behind, fraction]
    refine .inr ⟨rfl, ⟨ds, _, _, htext, hds, .inr (optional_digits_isFraction cs),
      optional_exponent_isExponent _⟩, .inl ?_⟩
    simp [htext]
  · split
    · rename_i cut hexp
      exact .inr ⟨rfl, ⟨ds, [], cut.1, rfl, hds, .inl rfl, .inr (exponent_isExponent hexp)⟩,
        .inr ⟨ds, cut.1, rfl, exponent_isExponent hexp⟩⟩
    · exact .inl ⟨rfl, hds⟩

theorem IsDigits.isNumber (h : IsDigits ds) (bare : Bool) : IsNumber bare ds :=
  ⟨ds, [], [], by simp, h, .inl rfl, .inl rfl⟩

theorem number_isNumber (h : number cs = some l) :
    l.kind = .integer ∧ IsDigits l.text ∨
    l.kind = .decimal ∧ IsNumber true l.text ∧ ('.' ∈ l.text ∨ HasExponent l.text) := by
  obtain ⟨cut, hcut, rfl⟩ := Option.map_eq_some_iff.mp h
  obtain ⟨-, hne, hall, -⟩ := takeRun1_eq_some_iff.mp hcut
  exact numberAfter_isNumber ⟨hne, hall⟩ cut.2

/-! ## Names, words and operators -/

theorem isNameStart_iff {c : Char} :
    isNameStart c = true ↔ c.isAlpha = true ∨ c = '_' ∨ c = '@' := by
  simp [isNameStart, or_assoc]

theorem isNamePart_iff {c : Char} : isNamePart c = true ↔ c.isAlphanum = true ∨ c = '_' := by
  simp [isNamePart]

theorem identifier_isIdentifier (h : identifier cs = some cut) : IsIdentifier cut.1 := by
  obtain ⟨c, tail, rfl, hc, rfl⟩ := identifier_inv h
  exact ⟨c, (takeRun isNamePart tail).1, rfl, isNameStart_iff.mp hc, fun d hd =>
    isNamePart_iff.mp ((forall_takeRun isNamePart tail).1 d hd)⟩

theorem identifier_longest (h : identifier cs = some cut) (ht : IsIdentifier text)
    (hp : text <+: cs) : text.length ≤ cut.1.length := by
  obtain ⟨c, tail, rfl, hc, htail⟩ := ht
  obtain ⟨behind, rfl⟩ := hp
  obtain ⟨-, hstop⟩ := forall_takeRun isNamePart (tail ++ behind)
  rw [List.cons_append, identifier, if_pos (isNameStart_iff.mpr hc)] at h
  cases h
  have hp : tail <+:
      (takeRun isNamePart (tail ++ behind)).1 ++ (takeRun isNamePart (tail ++ behind)).2 := by
    rw [takeRun_append]
    exact List.prefix_append _ _
  have hle := length_le_of_run (fun d hd => isNamePart_iff.mpr (htail d hd)) hstop hp
  simpa [Cut.behind] using hle

/-- A name that stands in backticks at the start of a text is found, or a longer one. -/
theorem quotedNameTail_longest {body : List Char} (h : quotedNameTail cs = some cut)
    (hp : double body ++ ['\x60'] <+: cs) : (double body ++ ['\x60']).length ≤ cut.1.length := by
  induction body generalizing cs cut with
  | nil =>
    have hne : cut.1 ≠ [] := by
      obtain ⟨name, hname⟩ := exists_double_of_quotedNameTail h
      simp [hname]
    exact List.length_pos_iff.mpr hne
  | cons c body ih =>
    obtain ⟨behind, rfl⟩ := hp
    by_cases hc : c = '\x60'
    · subst hc
      simp only [double, ↓reduceIte, List.cons_append, quotedNameTail] at h
      obtain ⟨inner, hinner, rfl⟩ := Option.map_eq_some_iff.mp h
      have hle := ih hinner (List.prefix_append _ _)
      simp only [double, ↓reduceIte, List.cons_append, Cut.behind, List.length_cons,
        List.length_append] at hle ⊢
      omega
    · simp only [double, if_neg hc, List.cons_append, quotedNameTail_cons hc] at h
      obtain ⟨inner, hinner, rfl⟩ := Option.map_eq_some_iff.mp h
      have hle := ih hinner (List.prefix_append _ _)
      simp only [double, if_neg hc, List.cons_append, Cut.behind, List.length_cons,
        List.length_append] at hle ⊢
      omega

theorem quotedName_longest (h : quotedName cs = some cut) (ht : IsQuotedName text)
    (hp : text <+: cs) : text.length ≤ cut.1.length := by
  obtain ⟨body, rfl⟩ := ht
  obtain ⟨behind, rfl⟩ := hp
  obtain ⟨inner, hinner, rfl⟩ := Option.map_eq_some_iff.mp h
  have hprefix : double body ++ ['\x60'] <+: double body ++ ['\x60'] ++ behind :=
    List.prefix_append _ _
  have hle := quotedNameTail_longest hinner hprefix
  simp only [mark, Cut.behind, List.length_append, List.length_cons] at hle ⊢
  omega

theorem takeRun1_longest (h : takeRun1 p cs = some cut) (hall : ∀ c ∈ text, p c = true)
    (hp : text <+: cs) : text.length ≤ cut.1.length := by
  obtain ⟨happend, -, -, hstop⟩ := takeRun1_eq_some_iff.mp h
  rw [happend] at hp
  exact length_le_of_run hall hstop hp

theorem operator_mem (h : operator cs = some l) : l.text ∈ operators := by
  unfold operator at h
  split at h <;> cases h <;> dsimp only <;> decide

/-- The operators of two characters. -/
def pairedOperators : List (List Char) := ["==", "!=", "<=", ">="].map String.toList

/-- The operators of two characters are looked for first. -/
theorem operator_paired (hop : text ∈ pairedOperators) (h : operator (text ++ rest) = some l) :
    l.text = text := by
  simp only [pairedOperators, List.map_cons, List.map_nil, List.mem_cons, List.not_mem_nil,
    or_false] at hop
  rcases hop with rfl | rfl | rfl | rfl <;> cases h <;> rfl

theorem operator_longest (h : operator cs = some l) (hop : text ∈ operators) (hp : text <+: cs) :
    text.length ≤ l.text.length := by
  have hlength : ∀ op ∈ operators, op.length = 1 ∨ op ∈ pairedOperators := by decide
  rcases hlength text hop with hone | hpair
  · rw [hone]
    exact List.length_pos_iff.mpr (operator_starts h).2
  · obtain ⟨rest, rfl⟩ := hp
    rw [operator_paired hpair h]

/-! ## The first character of a text -/

/-- The classes of the texts of expressions. -/
inductive Shape where
  | number | identifier | quotedName | operator
deriving DecidableEq

/-- The class of the texts of an expression that start with `c`. -/
def shape (c : Char) : Shape :=
  if c.isDigit then .number
  else if isNameStart c then .identifier
  else if c = '\x60' then .quotedName
  else .operator

/-- The text starts with a character of the class `s`. -/
def StartsAs (s : Shape) (cs : List Char) : Prop := ∃ c ∈ cs.head?, shape c = s

theorem IsDigits.startsAs (h : IsDigits ds) (rest : List Char) : StartsAs .number (ds ++ rest) := by
  obtain ⟨hne, hall⟩ := h
  obtain ⟨d, ds, rfl⟩ := List.exists_cons_of_ne_nil hne
  exact ⟨d, rfl, if_pos (hall d (by simp))⟩

theorem IsNumber.startsAs {bare : Bool} (h : IsNumber bare cs) : StartsAs .number cs := by
  obtain ⟨whole, frac, exp, rfl, hwhole, -, -⟩ := h
  exact hwhole.startsAs _

/-- No name starts with a digit. -/
theorem isDigit_eq_false_of_isNameStart {c : Char} (h : isNameStart c = true) :
    c.isDigit = false := by
  rcases isNameStart_iff.mp h with halpha | rfl | rfl
  · by_contra hdigit
    rw [isAlpha_eq_false (p := fun c => !c.isDigit) (by decide) (by simpa using hdigit)] at halpha
    cases halpha
  · rfl
  · rfl

theorem IsIdentifier.startsAs (h : IsIdentifier cs) : StartsAs .identifier cs := by
  obtain ⟨c, tail, rfl, hc, -⟩ := h
  have hstart := isNameStart_iff.mpr hc
  refine ⟨c, rfl, ?_⟩
  rw [shape, if_neg (by simp [isDigit_eq_false_of_isNameStart hstart]), if_pos hstart]

theorem IsQuotedName.startsAs (h : IsQuotedName cs) : StartsAs .quotedName cs := by
  obtain ⟨name, rfl⟩ := h
  exact ⟨'\x60', rfl, by decide⟩

theorem startsAs_operator (h : text ∈ operators) : StartsAs .operator text := by
  have hall : ∀ op ∈ operators, op.head?.map shape = some .operator := by decide +kernel
  obtain ⟨c, hc, hshape⟩ := Option.map_eq_some_iff.mp (hall text h)
  exact ⟨c, hc, hshape⟩

/-- A text and what it starts are told by the same character. -/
theorem StartsAs.unique {s s' : Shape} (h : StartsAs s text) (h' : StartsAs s' ds)
    (hp : text <+: cs) (hp' : ds <+: cs) : s = s' := by
  obtain ⟨c, hc, rfl⟩ := h
  obtain ⟨c', hc', rfl⟩ := h'
  obtain ⟨tail, rfl⟩ := List.head?_eq_some_iff.mp hc
  obtain ⟨tail', rfl⟩ := List.head?_eq_some_iff.mp hc'
  obtain ⟨behind, rfl⟩ := hp
  obtain ⟨behind', heq⟩ := hp'
  rw [(List.cons.inj heq).1]

/-- The texts of a class. -/
def ShapeText (bare : Bool) : Shape → List Char → Prop
  | .number => IsNumber bare
  | .identifier => IsIdentifier
  | .quotedName => IsQuotedName
  | .operator => (· ∈ operators)

theorem ShapeText.startsAs {bare : Bool} {s : Shape} (h : ShapeText bare s text) :
    StartsAs s text := by
  cases s with
  | number => exact IsNumber.startsAs h
  | identifier => exact IsIdentifier.startsAs h
  | quotedName => exact IsQuotedName.startsAs h
  | operator => exact startsAs_operator h

/-- **The first character of a text tells its class.** -/
theorem TokenText.shapeText {bare : Bool} {s : Shape} (h : TokenText bare .expression text)
    (hs : StartsAs s ds) (hp : text <+: cs) (hp' : ds <+: cs) : ShapeText bare s text := by
  obtain ⟨s', hs'⟩ : ∃ s', ShapeText bare s' text := by
    cases h with
    | number h => exact ⟨.number, h⟩
    | identifier h => exact ⟨.identifier, h⟩
    | quotedName h => exact ⟨.quotedName, h⟩
    | operator h => exact ⟨.operator, h⟩
  rwa [hs.unique hs'.startsAs hp' hp]

/-! ## What is found is longest -/

theorem isCommandPart_iff {c : Char} :
    isCommandPart c = true ↔ isBlank c = false ∧ c ∉ ['[', ']', '/', '|'] := by
  simp [isCommandPart, and_assoc]

theorem isSourcePart_iff {c : Char} : isSourcePart c = true ↔
    isBlank c = false ∧ c ∉ ['=', '\x60', '|', ',', '[', ']', '/'] := by
  simp [isSourcePart, and_assoc]

/-- What is taken as a run is a word. -/
theorem isWord_of_takeRun1 {excluded : List Char}
    (hp : ∀ c, p c = true → isBlank c = false ∧ c ∉ excluded) (h : takeRun1 p cs = some cut) :
    IsWord excluded cut.1 := by
  obtain ⟨-, hne, hall, -⟩ := takeRun1_eq_some_iff.mp h
  exact ⟨hne, fun c hc => hp c (hall c hc)⟩

theorem commandMark_text (h : commandMark cs = some l) :
    ∃ c ∈ ['|', '[', ']'], l.text = [c] := by
  unfold commandMark at h
  split at h <;> cases h <;> simp

theorem sourceMark_text (h : sourceMark cs = some l) :
    ∃ c ∈ [',', '=', '|', '[', ']'], l.text = [c] := by
  unfold sourceMark at h
  split at h <;> cases h <;> simp

/-- What is found is the text of a token of the mode. -/
theorem Found.tokenText (h : Found m cs l) (hk : l.kind ≠ .string) : TokenText true m l.text := by
  cases h with
  | commandMark h =>
    obtain ⟨c, hc, htext⟩ := commandMark_text h
    rw [htext]
    exact .commandMark hc
  | commandWord h => exact .commandWord (isWord_of_takeRun1 (fun _ => isCommandPart_iff.mp) h)
  | string h => exact absurd rfl hk
  | quotedName h => exact .quotedName (exists_double_of_quotedName h)
  | number h =>
    rcases number_isNumber h with ⟨-, hdigits⟩ | ⟨-, hnumber, -⟩
    · exact .number (hdigits.isNumber true)
    · exact .number hnumber
  | identifier h => exact .identifier (identifier_isIdentifier h)
  | operator h => exact .operator (operator_mem h)
  | quotedSourceName h => exact .quotedSourceName (exists_double_of_quotedName h)
  | sourceMark h =>
    obtain ⟨c, hc, htext⟩ := sourceMark_text h
    rw [htext]
    exact .sourceMark hc
  | sourceWord h => exact .sourceWord (isWord_of_takeRun1 (fun _ => isSourcePart_iff.mp) h)

/-- A word does not start with a character that it may not have. -/
theorem IsWord.not_mem {excluded : List Char} (h : IsWord excluded text) (hp : text <+: cs)
    {c : Char} (hc : [c] <+: cs) : c ∉ excluded := by
  obtain ⟨hne, hall⟩ := h
  obtain ⟨d, tail, rfl⟩ := List.exists_cons_of_ne_nil hne
  obtain ⟨behind, rfl⟩ := hp
  obtain rfl : c = d := by simpa using hc
  exact (hall c (by simp)).2

theorem IsQuotedName.mark_prefix (h : IsQuotedName text) (hp : text <+: cs) : ['\x60'] <+: cs := by
  obtain ⟨name, rfl⟩ := h
  exact List.IsPrefix.trans ⟨double name ++ ['\x60'], by simp [mark]⟩ hp

/-! ### Marks and words

Among commands and sources there are marks of one character. No word has them, so where a mark is
found no word stands, and the other way round. -/

theorem commandMark_longest (h : commandMark cs = some l) (hl : l.text <+: cs)
    (ht : TokenText true .command text) (hp : text <+: cs) : text.length ≤ l.text.length := by
  obtain ⟨c, hc, htext⟩ := commandMark_text h
  rw [htext] at hl ⊢
  cases ht with
  | commandMark => exact le_rfl
  | commandWord hword =>
    have hexcluded : ∀ c ∈ ['|', '[', ']'], c ∈ ['[', ']', '/', '|'] := by simp
    exact absurd (hexcluded c hc) (hword.not_mem hp hl)

theorem commandWord_longest (h : takeRun1 isCommandPart cs = some cut) (hpos : 1 ≤ cut.1.length)
    (ht : TokenText true .command text) (hp : text <+: cs) : text.length ≤ cut.1.length := by
  cases ht with
  | commandMark => exact hpos
  | commandWord hword =>
    exact takeRun1_longest h (fun c hc => isCommandPart_iff.mpr (hword.2 c hc)) hp

theorem sourceMark_longest (h : sourceMark cs = some l) (hl : l.text <+: cs)
    (ht : TokenText true .source text) (hp : text <+: cs) : text.length ≤ l.text.length := by
  obtain ⟨c, hc, htext⟩ := sourceMark_text h
  rw [htext] at hl ⊢
  cases ht with
  | sourceMark => exact le_rfl
  | sourceWord hword =>
    have hexcluded : ∀ c ∈ [',', '=', '|', '[', ']'],
        c ∈ ['=', '\x60', '|', ',', '[', ']', '/'] := by
      simp
    exact absurd (hexcluded c hc) (hword.not_mem hp hl)
  | quotedSourceName ht =>
    obtain rfl : c = '\x60' := by
      simpa using List.prefix_of_prefix_length_le hl (ht.mark_prefix hp) le_rfl
    exact absurd hc (by simp)

theorem quotedSourceName_longest (h : quotedName cs = some cut) (hcut : cut.1 <+: cs)
    (hpos : 1 ≤ cut.1.length) (ht : TokenText true .source text) (hp : text <+: cs) :
    text.length ≤ cut.1.length := by
  have hfound : IsQuotedName cut.1 := exists_double_of_quotedName h
  cases ht with
  | sourceMark => exact hpos
  | sourceWord hword => exact absurd (by simp) (hword.not_mem hp (hfound.mark_prefix hcut))
  | quotedSourceName ht => exact quotedName_longest h ht hp

theorem sourceWord_longest (h : takeRun1 isSourcePart cs = some cut) (hcut : cut.1 <+: cs)
    (hpos : 1 ≤ cut.1.length) (ht : TokenText true .source text) (hp : text <+: cs) :
    text.length ≤ cut.1.length := by
  have hfound := isWord_of_takeRun1 (fun _ => isSourcePart_iff.mp) h
  cases ht with
  | sourceMark => exact hpos
  | sourceWord hword =>
    exact takeRun1_longest h (fun c hc => isSourcePart_iff.mpr (hword.2 c hc)) hp
  | quotedSourceName ht =>
    exact absurd (by simp) (hfound.not_mem hcut (ht.mark_prefix hp))

/-- No text of a token of the mode that stands at the start is longer than what is found. -/
theorem Found.longest (h : Found m cs l) (hl : l.Starts cs) (hk : l.kind ≠ .string)
    (ht : TokenText true m text) (hp : text <+: cs) : text.length ≤ l.text.length := by
  have hstarts : l.text <+: cs := ⟨l.rest, hl.1⟩
  have hpos : 1 ≤ l.text.length := List.length_pos_iff.mpr hl.2
  cases h with
  | commandMark h => exact commandMark_longest h hstarts ht hp
  | commandWord h => exact commandWord_longest h hpos ht hp
  | string h => exact absurd rfl hk
  -- The first character tells which shape a token of an expression has.
  | quotedName h =>
    have hs : StartsAs .quotedName _ := IsQuotedName.startsAs (exists_double_of_quotedName h)
    exact quotedName_longest h (ht.shapeText hs hp hstarts) hp
  | number h =>
    have hs : StartsAs .number l.text := by
      rcases number_isNumber h with ⟨-, hdigits⟩ | ⟨-, hnumber, -⟩
      · exact (hdigits.isNumber true).startsAs
      · exact hnumber.startsAs
    exact number_longest h (ht.shapeText hs hp hstarts) hp
  | identifier h =>
    have hs : StartsAs .identifier _ := (identifier_isIdentifier h).startsAs
    exact identifier_longest h (ht.shapeText hs hp hstarts) hp
  | operator h =>
    have hs : StartsAs .operator l.text := startsAs_operator (operator_mem h)
    exact operator_longest h (ht.shapeText hs hp hstarts) hp
  | quotedSourceName h => exact quotedSourceName_longest h hstarts hpos ht hp
  | sourceMark h => exact sourceMark_longest h hstarts ht hp
  | sourceWord h => exact sourceWord_longest h hstarts hpos ht hp

/-- **A token is the longest text of its mode.** Of all texts of tokens that stand where a token,
other than a string, is read, the token has the longest. -/
theorem scan_longest (h : scan m cs = .ok l) (hk : l.kind ≠ .string) :
    LongestAt (TokenText true m) cs l.text := by
  have hfound := found_of_scan h
  have hstarts := scan_starts h
  exact ⟨hfound.tokenText hk, ⟨l.rest, hstarts.1⟩, fun _ ht hp => hfound.longest hstarts hk ht hp⟩

end PipeQuery.Lexer

import PipeQuery.Lexer.Error
import PipeQuery.Lexer.Mode
import PipeQuery.Text.Blank

/-!
# Reading one token

Recognisers for the shapes of tokens. Each cuts a text in two: what it recognises, and the rest.
`scan` takes the recognisers of a mode in turn and gives the first token they find.

## Main definitions

* `trivia`: the blanks and comments at the start of a text
* `stringLiteral`, `quotedName`, `number`, `identifier`, `operator`, `commandWord`, `sourceWord`:
  the shapes of tokens
* `commandKeyword?`, `expressionKeyword?`: the keywords of two modes
* `scan`: the first token of a text, in a mode
* `Found`: which recogniser finds a token

## Main results

* `found_of_scan`: the token that is read is found by a recogniser of the mode
* `trivia_append`: trivia and rest make up the text
* `scan_starts`: a token read is a part of the text, and not empty
-/

namespace PipeQuery.Lexer

open Token (Kind)

/-- A text in two parts: what a recogniser took, and the rest. -/
abbrev Cut := List Char × List Char

/-- The cut with `taken` in front of what was taken. -/
def Cut.behind (taken : List Char) (cut : Cut) : Cut := (taken ++ cut.1, cut.2)

/-- Take characters as long as they satisfy `p`. -/
def takeRun (p : Char → Bool) (cs : List Char) : Cut := (cs.takeWhile p, cs.dropWhile p)

/-- Take at least one character, as long as they satisfy `p`. -/
def takeRun1 (p : Char → Bool) (cs : List Char) : Option Cut :=
  if (cs.takeWhile p).isEmpty then none else some (takeRun p cs)

/-- Take everything through the first occurrence of `mark`. -/
def takeThrough (mark : List Char) : List Char → Option Cut
  | [] => if mark.isEmpty then some ([], []) else none
  | c :: cs =>
    if mark.isPrefixOf (c :: cs) then some (mark, (c :: cs).drop mark.length)
    else (takeThrough mark cs).map (Cut.behind [c])

/-! ## Blanks and comments -/

/-- A comment from two slashes to the end of its line. -/
def lineComment : List Char → Option Cut
  | '/' :: '/' :: cs => some (Cut.behind ['/', '/'] (takeRun (fun c => c != '\n' && c != '\r') cs))
  | _ => none

/-- A comment between `/*` and the next `*/`. -/
def blockComment : List Char → Option Cut
  | '/' :: '*' :: cs => (takeThrough ['*', '/'] cs).map (Cut.behind ['/', '*'])
  | _ => none

/-- One blank run or comment. -/
def triviaPiece (cs : List Char) : Option Cut :=
  (takeRun1 isLayout cs).or ((lineComment cs).or (blockComment cs))

theorem takeRun_append (p : Char → Bool) (cs : List Char) :
    (takeRun p cs).1 ++ (takeRun p cs).2 = cs :=
  List.takeWhile_append_dropWhile

theorem takeRun1_append {p : Char → Bool} {cs : List Char} {cut : Cut}
    (h : takeRun1 p cs = some cut) : cut.1 ++ cut.2 = cs ∧ cut.1 ≠ [] := by
  unfold takeRun1 at h
  split at h
  · cases h
  · next hne =>
    cases h
    exact ⟨takeRun_append p cs, fun e => hne (by simpa [takeRun] using e)⟩

theorem takeThrough_append {mark cs : List Char} {cut : Cut} (h : takeThrough mark cs = some cut) :
    cut.1 ++ cut.2 = cs := by
  induction cs generalizing cut with
  | nil =>
    unfold takeThrough at h
    split at h <;> cases h
    rfl
  | cons c cs ih =>
    unfold takeThrough at h
    split at h
    · next hp =>
      cases h
      obtain ⟨rest, e⟩ := List.isPrefixOf_iff_prefix.mp hp
      simp [← e]
    · obtain ⟨inner, hi, rfl⟩ := Option.map_eq_some_iff.mp h
      simp [Cut.behind, ih hi]

theorem lineComment_append {cs : List Char} {cut : Cut} (h : lineComment cs = some cut) :
    cut.1 ++ cut.2 = cs ∧ cut.1 ≠ [] := by
  unfold lineComment at h
  split at h <;> cases h
  simp [Cut.behind, takeRun_append]

theorem blockComment_append {cs : List Char} {cut : Cut} (h : blockComment cs = some cut) :
    cut.1 ++ cut.2 = cs ∧ cut.1 ≠ [] := by
  unfold blockComment at h
  split at h
  · obtain ⟨inner, hi, rfl⟩ := Option.map_eq_some_iff.mp h
    simp [Cut.behind, takeThrough_append hi]
  · cases h

theorem triviaPiece_append {cs : List Char} {cut : Cut} (h : triviaPiece cs = some cut) :
    cut.1 ++ cut.2 = cs ∧ cut.1 ≠ [] := by
  simp only [triviaPiece, Option.or_eq_some_iff] at h
  rcases h with h | ⟨-, h | ⟨-, h⟩⟩
  · exact takeRun1_append h
  · exact lineComment_append h
  · exact blockComment_append h

theorem length_lt_of_append {cs taken rest : List Char} (h : taken ++ rest = cs)
    (hne : taken ≠ []) : rest.length < cs.length := by
  subst h
  have := List.length_pos_iff.mpr hne
  simp only [List.length_append]
  omega

/-- The blanks and comments at the start of a text. -/
def trivia (cs : List Char) : Cut :=
  match _h : triviaPiece cs with
  | some (piece, rest) => (trivia rest).behind piece
  | none => ([], cs)
termination_by cs.length
decreasing_by
  have := triviaPiece_append _h
  exact length_lt_of_append this.1 this.2

theorem trivia_of_piece {cs piece rest : List Char} (h : triviaPiece cs = some (piece, rest)) :
    trivia cs = (trivia rest).behind piece := by
  rw [trivia]
  split
  · next h' =>
    rw [h] at h'
    cases h'
    rfl
  · next h' =>
    rw [h] at h'
    cases h'

theorem trivia_of_none {cs : List Char} (h : triviaPiece cs = none) : trivia cs = ([], cs) := by
  rw [trivia]
  split <;> simp_all

theorem trivia_append (cs : List Char) : (trivia cs).1 ++ (trivia cs).2 = cs := by
  induction cs using trivia.induct with
  | case1 cs piece rest h ih =>
    rw [trivia_of_piece h]
    simp only [Cut.behind, List.append_assoc, ih]
    exact (triviaPiece_append h).1
  | case2 cs h => rw [trivia_of_none h, List.nil_append]

theorem append_of_trivia {cs gap rest : List Char} (hgap : trivia cs = (gap, rest)) :
    gap ++ rest = cs := by
  have happend := trivia_append cs
  rwa [hgap] at happend

theorem length_trivia_le (cs : List Char) : (trivia cs).2.length ≤ cs.length := by
  have := congrArg List.length (trivia_append cs)
  simp only [List.length_append] at this
  omega

/-! ## Literals and names -/

/-- What stands behind the opening quote of a string, through its closing quote. A backslash
takes the next character with it, and no line break stands unescaped. -/
def stringTail : List Char → Option Cut
  | [] => none
  | '"' :: cs => some (['"'], cs)
  | '\\' :: c :: cs => (stringTail cs).map (Cut.behind ['\\', c])
  | c :: cs =>
    if c = '\\' || c = '\r' || c = '\n' then none else (stringTail cs).map (Cut.behind [c])

/-- A string between triple quotes, which may span lines and knows no escapes. -/
def tripleQuoted : List Char → Option Cut
  | '"' :: '"' :: '"' :: cs => (takeThrough ['"', '"', '"'] cs).map (Cut.behind ['"', '"', '"'])
  | _ => none

/-- A string between single double quotes. -/
def doubleQuoted : List Char → Option Cut
  | '"' :: cs => (stringTail cs).map (Cut.behind ['"'])
  | _ => none

/-- A string literal. Triple quotes without an end are read as an empty string and what follows
it. -/
def stringLiteral (cs : List Char) : Option Cut := (tripleQuoted cs).or (doubleQuoted cs)

/-- What stands behind the opening backtick of a name, through its closing backtick. A backtick in
the name is written twice. -/
def quotedNameTail : List Char → Option Cut
  | [] => none
  | '\x60' :: '\x60' :: cs => (quotedNameTail cs).map (Cut.behind ['\x60', '\x60'])
  | c :: cs => if c = '\x60' then some ([c], cs) else (quotedNameTail cs).map (Cut.behind [c])

/-- A name between backticks. -/
def quotedName : List Char → Option Cut
  | '\x60' :: cs => (quotedNameTail cs).map (Cut.behind ['\x60'])
  | _ => none

/-- Digits, at least one. -/
def digits (cs : List Char) : Option Cut := takeRun1 Char.isDigit cs

/-- The sign of an exponent, which may be missing. -/
def exponentSign : List Char → Cut
  | '+' :: cs => (['+'], cs)
  | '-' :: cs => (['-'], cs)
  | cs => ([], cs)

/-- An exponent: `e` or `E`, perhaps a sign, and digits. -/
def exponent : List Char → Option Cut
  | [] => none
  | c :: cs =>
    if c = 'e' || c = 'E' then
      (digits (exponentSign cs).2).map (Cut.behind (c :: (exponentSign cs).1))
    else none

/-- What `part` takes, or nothing. -/
def optional (part : List Char → Option Cut) (cs : List Char) : Cut := (part cs).getD ([], cs)

/-- What may stand behind the point of a decimal literal. -/
def fraction (cs : List Char) : Cut :=
  Cut.behind (optional digits cs).1 (optional exponent (optional digits cs).2)

/-- A token: its kind, its text, and what follows it. -/
structure Lexeme where
  kind : Kind
  text : List Char
  rest : List Char
deriving DecidableEq

/-- The lexeme of a cut. -/
def Cut.lexeme (kind : Kind) (cut : Cut) : Lexeme := ⟨kind, cut.1, cut.2⟩

/-- A number that starts with the given digits. With a point or an exponent it is a decimal
literal. -/
def numberAfter (ds : List Char) : List Char → Lexeme
  | '.' :: cs => (Cut.behind (ds ++ ['.']) (fraction cs)).lexeme .decimal
  | cs =>
    match exponent cs with
    | some cut => (cut.behind ds).lexeme .decimal
    | none => ⟨.integer, ds, cs⟩

/-- A number. -/
def number (cs : List Char) : Option Lexeme :=
  (digits cs).map fun cut => numberAfter cut.1 cut.2

/-- Whether a bare name starts with this character. -/
def isNameStart (c : Char) : Bool := c.isAlpha || c = '_' || c = '@'

/-- Whether a bare name goes on with this character. -/
def isNamePart (c : Char) : Bool := c.isAlphanum || c = '_'

/-- A bare name. -/
def identifier : List Char → Option Cut
  | [] => none
  | c :: cs => if isNameStart c then some (Cut.behind [c] (takeRun isNamePart cs)) else none

/-- Whether a character belongs to a word in command position. -/
def isCommandPart (c : Char) : Bool :=
  !isBlank c && !(c = '[' || c = ']' || c = '/' || c = '|')

/-- Whether a character belongs to a bare source name. -/
def isSourcePart (c : Char) : Bool :=
  !isBlank c &&
    !(c = '=' || c = '\x60' || c = '|' || c = ',' || c = '[' || c = ']' || c = '/')

/-! ## Keywords -/

/-- The keyword among `ks` that is spelled `word`, letter case apart. -/
def keyword? (ks : List Kind) (word : List Char) : Option Kind :=
  ks.find? fun k => k.spelling?.map String.toList = some (word.map Char.toLower)

/-- The command a word names. -/
def commandKeyword? (word : List Char) : Option Kind :=
  keyword? [.evalCmd, .explainCmd, .fromCmd, .rowCmd, .statsCmd, .whereCmd, .sortCmd, .limitCmd,
    .projectCmd] word

/-- The keyword a name in an expression is. -/
def expressionKeyword? (word : List Char) : Option Kind :=
  keyword? [.byWord, .andWord, .ascWord, .descWord, .falseWord, .firstWord, .lastWord, .notWord,
    .nullWord, .nullsWord, .orWord, .trueWord] word

/-! ## Operators -/

/-- An operator or a punctuation mark of an expression; of two that fit, the longer. -/
def operator : List Char → Option Lexeme
  | '=' :: '=' :: cs => some ⟨.equal, ['=', '='], cs⟩
  | '!' :: '=' :: cs => some ⟨.notEqual, ['!', '='], cs⟩
  | '<' :: '=' :: cs => some ⟨.lessEqual, ['<', '='], cs⟩
  | '>' :: '=' :: cs => some ⟨.greaterEqual, ['>', '='], cs⟩
  | '<' :: cs => some ⟨.less, ['<'], cs⟩
  | '>' :: cs => some ⟨.greater, ['>'], cs⟩
  | '=' :: cs => some ⟨.assign, ['='], cs⟩
  | '+' :: cs => some ⟨.plus, ['+'], cs⟩
  | '-' :: cs => some ⟨.minus, ['-'], cs⟩
  | '*' :: cs => some ⟨.star, ['*'], cs⟩
  | '/' :: cs => some ⟨.slash, ['/'], cs⟩
  | '%' :: cs => some ⟨.percent, ['%'], cs⟩
  | '(' :: cs => some ⟨.leftParen, ['('], cs⟩
  | ')' :: cs => some ⟨.rightParen, [')'], cs⟩
  | ',' :: cs => some ⟨.comma, [','], cs⟩
  | '.' :: cs => some ⟨.dot, ['.'], cs⟩
  | '[' :: cs => some ⟨.leftBracket, ['['], cs⟩
  | ']' :: cs => some ⟨.rightBracket, [']'], cs⟩
  | '|' :: cs => some ⟨.pipe, ['|'], cs⟩
  | _ => none

/-- A punctuation mark in command position. -/
def commandMark : List Char → Option Lexeme
  | '|' :: cs => some ⟨.pipe, ['|'], cs⟩
  | '[' :: cs => some ⟨.leftBracket, ['['], cs⟩
  | ']' :: cs => some ⟨.rightBracket, [']'], cs⟩
  | _ => none

/-- A punctuation mark in a list of sources. -/
def sourceMark : List Char → Option Lexeme
  | ',' :: cs => some ⟨.comma, [','], cs⟩
  | '=' :: cs => some ⟨.assign, ['='], cs⟩
  | '|' :: cs => some ⟨.pipe, ['|'], cs⟩
  | '[' :: cs => some ⟨.leftBracket, ['['], cs⟩
  | ']' :: cs => some ⟨.rightBracket, [']'], cs⟩
  | _ => none

/-! ## The first token of a text -/

/-- A word in command position, which names a command or is unknown. -/
def commandWord (cs : List Char) : Option Lexeme :=
  (takeRun1 isCommandPart cs).map fun cut =>
    cut.lexeme ((commandKeyword? cut.1).getD .unknownCmd)

/-- A bare name in an expression, which may be a keyword. -/
def expressionWord (cs : List Char) : Option Lexeme :=
  (identifier cs).map fun cut => cut.lexeme ((expressionKeyword? cut.1).getD .name)

/-- A bare source name. No keyword is looked for in it. -/
def sourceWord (cs : List Char) : Option Lexeme :=
  (takeRun1 isSourcePart cs).map (Cut.lexeme .sourceName)

/-- What to say of a character that starts no token. -/
def unexpected (cs : List Char) : Cause := .unexpected (cs.head?.getD (Char.ofNat 0))

/-- The lexeme, if there is one, or else the cause. -/
def orCause (cause : Cause) : Option Lexeme → Except Cause Lexeme
  | some lexeme => .ok lexeme
  | none => .error cause

/-- The first token of a nonempty text, in a mode. -/
def scan : Mode → List Char → Except Cause Lexeme
  | .command, cs =>
    -- No mark belongs to a word, so the order of the two does not matter.
    orCause (unexpected cs) ((commandMark cs).or (commandWord cs))
  | .expression, cs =>
    -- An opening mark decides what is read, so that what is wrong with it is said.
    if cs.head? = some '"' then orCause .openString ((stringLiteral cs).map (Cut.lexeme .string))
    else if cs.head? = some '\x60' then
      orCause .openName ((quotedName cs).map (Cut.lexeme .quotedName))
    else orCause (unexpected cs) ((number cs).or ((expressionWord cs).or (operator cs)))
  | .source, cs =>
    if cs.head? = some '\x60' then
      orCause .openName ((quotedName cs).map (Cut.lexeme .quotedSourceName))
    else orCause (unexpected cs) ((sourceMark cs).or (sourceWord cs))

/-! ## Which recogniser finds a token -/

theorem orCause_eq_ok {cause : Cause} {o : Option Lexeme} {l : Lexeme}
    (h : orCause cause o = .ok l) : o = some l := by
  cases o <;> cases h; rfl

/-- The recognisers that may find the first token of a text, mode by mode. -/
inductive Found : Mode → List Char → Lexeme → Prop
  | commandMark {cs : List Char} {l : Lexeme} (h : commandMark cs = some l) : Found .command cs l
  | commandWord {cs : List Char} {cut : Cut} (h : takeRun1 isCommandPart cs = some cut) :
    Found .command cs (cut.lexeme ((commandKeyword? cut.1).getD .unknownCmd))
  | string {cs : List Char} {cut : Cut} (h : stringLiteral cs = some cut) :
    Found .expression cs (cut.lexeme .string)
  | quotedName {cs : List Char} {cut : Cut} (h : quotedName cs = some cut) :
    Found .expression cs (cut.lexeme .quotedName)
  | number {cs : List Char} {l : Lexeme} (h : number cs = some l) : Found .expression cs l
  | identifier {cs : List Char} {cut : Cut} (h : identifier cs = some cut) :
    Found .expression cs (cut.lexeme ((expressionKeyword? cut.1).getD .name))
  | operator {cs : List Char} {l : Lexeme} (h : operator cs = some l) : Found .expression cs l
  | quotedSourceName {cs : List Char} {cut : Cut} (h : quotedName cs = some cut) :
    Found .source cs (cut.lexeme .quotedSourceName)
  | sourceMark {cs : List Char} {l : Lexeme} (h : sourceMark cs = some l) : Found .source cs l
  | sourceWord {cs : List Char} {cut : Cut} (h : takeRun1 isSourcePart cs = some cut) :
    Found .source cs (cut.lexeme .sourceName)

theorem found_of_scan {m : Mode} {cs : List Char} {l : Lexeme} (h : scan m cs = .ok l) :
    Found m cs l := by
  cases m with
  | command =>
    rcases Option.or_eq_some_iff.mp (orCause_eq_ok h) with h | ⟨-, h⟩
    · exact .commandMark h
    · obtain ⟨cut, hcut, rfl⟩ := Option.map_eq_some_iff.mp h
      exact .commandWord hcut
  | expression =>
    rw [scan] at h
    split at h
    · obtain ⟨cut, hcut, rfl⟩ := Option.map_eq_some_iff.mp (orCause_eq_ok h)
      exact .string hcut
    · split at h
      · obtain ⟨cut, hcut, rfl⟩ := Option.map_eq_some_iff.mp (orCause_eq_ok h)
        exact .quotedName hcut
      · rcases Option.or_eq_some_iff.mp (orCause_eq_ok h) with h | ⟨-, h⟩
        · exact .number h
        · rcases Option.or_eq_some_iff.mp h with h | ⟨-, h⟩
          · obtain ⟨cut, hcut, rfl⟩ := Option.map_eq_some_iff.mp h
            exact .identifier hcut
          · exact .operator h
  | source =>
    rw [scan] at h
    split at h
    · obtain ⟨cut, hcut, rfl⟩ := Option.map_eq_some_iff.mp (orCause_eq_ok h)
      exact .quotedSourceName hcut
    · rcases Option.or_eq_some_iff.mp (orCause_eq_ok h) with h | ⟨-, h⟩
      · exact .sourceMark h
      · obtain ⟨cut, hcut, rfl⟩ := Option.map_eq_some_iff.mp h
        exact .sourceWord hcut

/-! ## A token is a part of its text -/

/-- The lexeme starts the text `cs` and is not empty. -/
def Lexeme.Starts (l : Lexeme) (cs : List Char) : Prop := l.text ++ l.rest = cs ∧ l.text ≠ []

theorem Lexeme.Starts.length_lt {l : Lexeme} {cs : List Char} (h : l.Starts cs) :
    l.rest.length < cs.length :=
  length_lt_of_append h.1 h.2

theorem stringTail_append {cs : List Char} {cut : Cut} (h : stringTail cs = some cut) :
    cut.1 ++ cut.2 = cs := by
  fun_induction stringTail cs generalizing cut with
  | case1 => cases h
  | case2 cs => cases h; rfl
  | case3 c cs ih =>
    obtain ⟨inner, hi, rfl⟩ := Option.map_eq_some_iff.mp h
    simp [Cut.behind, ih hi]
  | case4 => cases h
  | case5 c cs _ _ _ ih =>
    obtain ⟨inner, hi, rfl⟩ := Option.map_eq_some_iff.mp h
    simp [Cut.behind, ih hi]

theorem quotedNameTail_append {cs : List Char} {cut : Cut} (h : quotedNameTail cs = some cut) :
    cut.1 ++ cut.2 = cs := by
  fun_induction quotedNameTail cs generalizing cut with
  | case1 => cases h
  | case2 cs ih =>
    obtain ⟨inner, hi, rfl⟩ := Option.map_eq_some_iff.mp h
    simp [Cut.behind, ih hi]
  | case3 => cases h; simp_all
  | case4 c cs _ _ ih =>
    obtain ⟨inner, hi, rfl⟩ := Option.map_eq_some_iff.mp h
    simp [Cut.behind, ih hi]

theorem stringLiteral_append {cs : List Char} {cut : Cut} (h : stringLiteral cs = some cut) :
    cut.1 ++ cut.2 = cs ∧ cut.1 ≠ [] := by
  simp only [stringLiteral, Option.or_eq_some_iff] at h
  rcases h with h | ⟨-, h⟩
  · unfold tripleQuoted at h
    split at h
    · obtain ⟨inner, hi, rfl⟩ := Option.map_eq_some_iff.mp h
      simp [Cut.behind, takeThrough_append hi]
    · cases h
  · unfold doubleQuoted at h
    split at h
    · obtain ⟨inner, hi, rfl⟩ := Option.map_eq_some_iff.mp h
      simp [Cut.behind, stringTail_append hi]
    · cases h

theorem quotedName_append {cs : List Char} {cut : Cut} (h : quotedName cs = some cut) :
    cut.1 ++ cut.2 = cs ∧ cut.1 ≠ [] := by
  unfold quotedName at h
  split at h
  · obtain ⟨inner, hi, rfl⟩ := Option.map_eq_some_iff.mp h
    simp [Cut.behind, quotedNameTail_append hi]
  · cases h

theorem exponentSign_append (cs : List Char) : (exponentSign cs).1 ++ (exponentSign cs).2 = cs := by
  unfold exponentSign; split <;> rfl

theorem exponent_append {cs : List Char} {cut : Cut} (h : exponent cs = some cut) :
    cut.1 ++ cut.2 = cs ∧ cut.1 ≠ [] := by
  unfold exponent at h
  split at h
  · cases h
  · next c cs =>
    split at h
    · obtain ⟨inner, hi, rfl⟩ := Option.map_eq_some_iff.mp h
      have := (takeRun1_append hi).1
      simp [Cut.behind, this, exponentSign_append]
    · cases h

theorem optional_append {part : List Char → Option Cut} {cs : List Char}
    (h : ∀ cut, part cs = some cut → cut.1 ++ cut.2 = cs) :
    (optional part cs).1 ++ (optional part cs).2 = cs := by
  unfold optional
  cases hp : part cs with
  | none => rfl
  | some cut => exact h cut hp

theorem fraction_append (cs : List Char) : (fraction cs).1 ++ (fraction cs).2 = cs := by
  have hd : (optional digits cs).1 ++ (optional digits cs).2 = cs :=
    optional_append fun _ h => (takeRun1_append h).1
  have he : (optional exponent (optional digits cs).2).1 ++
      (optional exponent (optional digits cs).2).2 = (optional digits cs).2 :=
    optional_append fun _ h => (exponent_append h).1
  simp only [fraction, Cut.behind, List.append_assoc, he, hd]

theorem numberAfter_starts {ds cs : List Char} (hne : ds ≠ []) :
    (numberAfter ds cs).Starts (ds ++ cs) := by
  unfold numberAfter
  split
  · simp [Cut.lexeme, Cut.behind, Lexeme.Starts, fraction_append]
  · split
    · next h =>
      have := (exponent_append h).1
      simp [Cut.lexeme, Cut.behind, Lexeme.Starts, this, hne]
    · exact ⟨rfl, hne⟩

theorem number_starts {cs : List Char} {l : Lexeme} (h : number cs = some l) : l.Starts cs := by
  obtain ⟨cut, hc, rfl⟩ := Option.map_eq_some_iff.mp h
  obtain ⟨he, hne⟩ := takeRun1_append hc
  exact he ▸ numberAfter_starts hne

/-- A bare name is a character that starts names, and the run of parts of names behind it. -/
theorem identifier_inv {cs : List Char} {cut : Cut} (h : identifier cs = some cut) :
    ∃ c tail, cs = c :: tail ∧ isNameStart c = true ∧
      cut = Cut.behind [c] (takeRun isNamePart tail) := by
  unfold identifier at h
  split at h
  · cases h
  · split at h <;> cases h
    exact ⟨_, _, rfl, ‹_›, rfl⟩

theorem identifier_append {cs : List Char} {cut : Cut} (h : identifier cs = some cut) :
    cut.1 ++ cut.2 = cs ∧ cut.1 ≠ [] := by
  obtain ⟨c, tail, rfl, -, rfl⟩ := identifier_inv h
  simp [Cut.behind, takeRun_append]

theorem operator_starts {cs : List Char} {l : Lexeme} (h : operator cs = some l) :
    l.Starts cs := by
  unfold operator at h
  split at h <;> cases h <;> exact ⟨rfl, by simp⟩

theorem commandMark_starts {cs : List Char} {l : Lexeme} (h : commandMark cs = some l) :
    l.Starts cs := by
  unfold commandMark at h
  split at h <;> cases h <;> exact ⟨rfl, by simp⟩

theorem sourceMark_starts {cs : List Char} {l : Lexeme} (h : sourceMark cs = some l) :
    l.Starts cs := by
  unfold sourceMark at h
  split at h <;> cases h <;> exact ⟨rfl, by simp⟩

/-- **A token read is a nonempty part of the text**, and the rest is what follows it. -/
theorem scan_starts {m : Mode} {cs : List Char} {l : Lexeme} (h : scan m cs = .ok l) :
    l.Starts cs := by
  cases found_of_scan h with
  | commandMark hf => exact commandMark_starts hf
  | commandWord hf | sourceWord hf => exact takeRun1_append hf
  | string hf => exact stringLiteral_append hf
  | quotedName hf | quotedSourceName hf => exact quotedName_append hf
  | number hf => exact number_starts hf
  | identifier hf => exact identifier_append hf
  | operator hf => exact operator_starts hf
  | sourceMark hf => exact sourceMark_starts hf

end PipeQuery.Lexer

import PipeQuery.Number.Numeral
import PipeQuery.Toml.Value

/-!
# TOML scalars

The numbers of TOML and its four kinds of strings. A reader takes what it reads off the front of a
text.

## Main definitions

* `Toml.Reader`: readers
* `Toml.integer?`, `Toml.float?`: the values of words that are numbers
* `Toml.quoted`: the strings that end on the line they start on
* `Toml.longQuoted`: the strings between triples of marks
-/

namespace PipeQuery.Toml

/-- What reads something off the front of a text, or fails. -/
abbrev Reader := StateT (List Char) Option

/-- Skip a given text. -/
def exactly (expected : String) : Reader Unit := fun cs =>
  if expected.toList.isPrefixOf cs then some ((), cs.drop expected.length) else none

/-- Whether the text starts with a given character. -/
def startsWith (c : Char) : Reader Bool := fun cs => some (cs.head? == some c, cs)

/-! ## Numbers -/

/-- The digits of a number, without the underscores that may stand between them. -/
def spacedDigits? (isDigit : Char → Bool) : List Char → Option (List Char)
  | [] => none
  | [d] => if isDigit d then some [d] else none
  | d :: '_' :: rest =>
    if isDigit d then (spacedDigits? isDigit rest).map (d :: ·) else none
  | d :: rest => if isDigit d then (spacedDigits? isDigit rest).map (d :: ·) else none

/-- Whether a row of digits has no zero in front. -/
def isTrimmed (ds : List Char) : Bool := ds.length = 1 || ds.head? != some '0'

/-- The digits of a decimal integer without its sign. -/
def decimalDigits? (cs : List Char) : Option (List Char) :=
  (spacedDigits? Char.isDigit cs).filter isTrimmed

/-- The value of a digit in a base up to sixteen. -/
def digitValue (c : Char) : Nat :=
  if c.isDigit then c.toNat - '0'.toNat else c.toLower.toNat - 'a'.toNat + 10

/-- The value of the digits of a base. -/
def based? (base : Nat) (cs : List Char) : Option Int :=
  let isDigit (c : Char) : Bool := c.isAlphanum && digitValue c < base
  (spacedDigits? isDigit cs).map fun ds => ds.foldl (fun n d => base * n + digitValue d) 0

/-- The value of an integer: a decimal one with an optional sign, or digits of another base. -/
def integer? : List Char → Option Int
  | '0' :: 'x' :: cs => based? 16 cs
  | '0' :: 'o' :: cs => based? 8 cs
  | '0' :: 'b' :: cs => based? 2 cs
  | cs =>
    let (isNegative, cs) := splitSign cs
    (decimalDigits? cs).map fun ds =>
      if isNegative then -(digitsValue ds : Int) else digitsValue ds

/-- A text up to the first character of a kind, and what stands behind that character. -/
def splitAtFirst (p : Char → Bool) (cs : List Char) : List Char × Option (List Char) :=
  (cs.takeWhile (!p ·), (cs.dropWhile (!p ·)).tail?)

/-- Whether a word is a float: an integer with a fraction, a power of ten or both, or a word for
infinity or no number. -/
def isFloat (cs : List Char) : Bool :=
  let (_, cs) := splitSign cs
  let (mantissa, power) := splitAtFirst (fun c => c = 'e' || c = 'E') cs
  let (whole, fraction) := splitAtFirst (· = '.') mantissa
  let isDigits (ds : List Char) : Bool := (spacedDigits? Char.isDigit ds).isSome
  cs = "inf".toList || cs = "nan".toList ||
    (decimalDigits? whole).isSome && fraction.all isDigits &&
      power.all (fun ds => isDigits (splitSign ds).2) && (fraction.isSome || power.isSome)

/-- The numeral that a float is written as, underscores apart. -/
def float? (cs : List Char) : Option Numeral :=
  if isFloat cs then Numeral.ofText? (cs.filter (· ≠ '_')) else none

/-! ## Strings -/

/-- Whether a character may stand in a string or comment. -/
def isPrintable (c : Char) : Bool := c = '\t' || 0x20 ≤ c.toNat && c.toNat ≠ 0x7f

/-- The character with a code, if there is one. -/
def charOfCode? (n : Nat) : Option Char := if h : n.isValidChar then some (Char.ofNatAux n h) else none

/-- Read the digits of a character's code, `n` of them. -/
def codePoint (n : Nat) : Reader Char := fun cs => do
  let ds := cs.take n
  if ds.length < n || ds.contains '_' then none
  else
    let code ← based? 16 ds
    return (← charOfCode? code.toNat, cs.drop n)

/-- Read the character that an escape stands for, behind the backslash. -/
def escaped : Reader Char
  | 'b' :: cs => some ('\x08', cs)
  | 't' :: cs => some ('\t', cs)
  | 'n' :: cs => some ('\n', cs)
  | 'f' :: cs => some ('\x0c', cs)
  | 'r' :: cs => some ('\r', cs)
  | 'e' :: cs => some ('\x1b', cs)
  | '"' :: cs => some ('"', cs)
  | '\\' :: cs => some ('\\', cs)
  | 'x' :: cs => codePoint 2 cs
  | 'u' :: cs => codePoint 4 cs
  | 'U' :: cs => codePoint 8 cs
  | _ => none

/-- Whether a backslash stands at the end of a line, behind which blanks and line ends up to the
next character do not count. -/
def endsLine (cs : List Char) : Bool :=
  match cs.dropWhile (fun c => c = ' ' || c = '\t') with
  | '\n' :: _ => true
  | '\r' :: '\n' :: _ => true
  | _ => false

/-- Read up to the closing mark, with at most `n` characters before it. Behind double quotes there
are escapes. -/
def quotedChars (mark : Char) : Nat → Reader (List Char)
  | 0, _ => none
  | _ + 1, [] => none
  | n + 1, c :: cs =>
    if c = mark then some ([], cs)
    else if c = '\\' ∧ mark = '"' then do
      let (c, cs) ← escaped cs
      let (rest, cs) ← quotedChars mark n cs
      return (c :: rest, cs)
    else if isPrintable c then do
      let (rest, cs) ← quotedChars mark n cs
      return (c :: rest, cs)
    else none

/-- Read a string on one line, behind its opening mark. -/
def quoted (mark : Char) : Reader String := fun cs => do
  let (s, cs) ← quotedChars mark (cs.length + 1) cs
  return (String.ofList s, cs)

/-- The text behind blanks and line ends. -/
def dropLineEnds : List Char → List Char
  | ' ' :: cs => dropLineEnds cs
  | '\t' :: cs => dropLineEnds cs
  | '\n' :: cs => dropLineEnds cs
  | '\r' :: '\n' :: cs => dropLineEnds cs
  | cs => cs

/-- Read up to the closing marks, three in a row. Up to two more marks behind the first three belong
to the string, which the last three then close. -/
def longQuotedChars (mark : Char) : Nat → Reader (List Char)
  | 0, _ => none
  | n + 1, cs =>
    match cs with
    | [] => none
    | '\r' :: '\n' :: cs => do
      let (rest, cs) ← longQuotedChars mark n cs
      return ('\n' :: rest, cs)
    | c :: cs =>
      if c = mark ∧ [mark, mark].isPrefixOf cs then
        let more := (((cs.drop 2).take 2).takeWhile (· = mark)).length
        some (List.replicate more mark, cs.drop (2 + more))
      else if c = '\\' ∧ mark = '"' then
        if endsLine cs then longQuotedChars mark n (dropLineEnds cs)
        else do
          let (c, cs) ← escaped cs
          let (rest, cs) ← longQuotedChars mark n cs
          return (c :: rest, cs)
      else if c = '\n' ∨ isPrintable c then do
        let (rest, cs) ← longQuotedChars mark n cs
        return (c :: rest, cs)
      else none

/-- Read a string between triples of marks, behind the opening ones. A line end right behind them
does not count. -/
def longQuoted (mark : Char) : Reader String := fun cs => do
  let cs :=
    match cs with
    | '\n' :: cs => cs
    | '\r' :: '\n' :: cs => cs
    | cs => cs
  let (s, cs) ← longQuotedChars mark (cs.length + 1) cs
  return (String.ofList s, cs)

end PipeQuery.Toml

/-!
# Numerals

A numeral is a signed decimal number with an optional point and an optional power of ten, or one of
the words for infinity and for a value that is no number. Reading it gives its exact value.

## Main definitions

* `digitsValue`: the number written by decimal digits
* `Numeral`, `Magnitude`: a sign and what it stands before
* `readInteger?`, `readNatural?`: the values of rows of digits with a sign
* `Numeral.ofText?`: the numeral written by a text
-/

namespace PipeQuery

/-- The number written by decimal digits. -/
def digitsValue (ds : List Char) : Nat := ds.foldl (fun n d => 10 * n + (d.toNat - '0'.toNat)) 0

/-- A sign in front of a text, and the text behind it. -/
def splitSign : List Char → Bool × List Char
  | '-' :: cs => (true, cs)
  | '+' :: cs => (false, cs)
  | cs => (false, cs)

/-- The value of a row of digits with an optional sign. -/
def readInteger? (cs : List Char) : Option Int :=
  let (isNegative, ds) := splitSign cs
  if ds.isEmpty || !ds.all Char.isDigit then none
  else if isNegative then some (-(digitsValue ds : Int)) else some (digitsValue ds)

/-- The value of a row of digits below a limit, with an optional plus sign. -/
def readNatural? (limit : Nat) (cs : List Char) : Option Nat :=
  let ds :=
    match cs with
    | '+' :: ds => ds
    | ds => ds
  if ds.isEmpty || !ds.all Char.isDigit then none
  else if digitsValue ds < limit then some (digitsValue ds) else none

/-- What a numeral stands for, its sign apart. -/
inductive Magnitude where
  /-- The number `digits * 10 ^ exponent`. -/
  | finite (digits : Nat) (exponent : Int)
  | infinite
  | undefined
deriving DecidableEq

/-- A sign and a magnitude. -/
structure Numeral where
  isNegative : Bool
  magnitude : Magnitude
deriving DecidableEq

namespace Numeral

/-- The power of ten at the end of a numeral; without one it is zero. -/
def readExponent? : List Char → Option Int
  | [] => some 0
  | c :: cs => if c = 'e' ∨ c = 'E' then readInteger? cs else none

/-- The magnitude of a decimal number: digits with an optional point before, among or behind them,
and an optional power of ten. -/
def readDecimal? (cs : List Char) : Option Magnitude :=
  let whole := cs.takeWhile Char.isDigit
  let rest := cs.dropWhile Char.isDigit
  let (fraction, rest) :=
    match rest with
    | '.' :: rest => (rest.takeWhile Char.isDigit, rest.dropWhile Char.isDigit)
    | rest => ([], rest)
  if whole.isEmpty && fraction.isEmpty then none
  else
    (readExponent? rest).map fun exponent =>
      -- Each digit behind the point lowers the power of ten by one.
      .finite (digitsValue (whole ++ fraction)) (exponent - fraction.length)

/-- The magnitude that a word stands for, letter case apart. -/
def readWord? (cs : List Char) : Option Magnitude :=
  match String.ofList (cs.map Char.toLower) with
  | "inf" | "infinity" => some .infinite
  | "nan" => some .undefined
  | _ => none

/-- The numeral written by a text. -/
def ofText? (cs : List Char) : Option Numeral :=
  let (isNegative, cs) := splitSign cs
  ((readDecimal? cs).or (readWord? cs)).map (Numeral.mk isNegative)

end Numeral

end PipeQuery

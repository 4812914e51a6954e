import PipeQuery.Number.Binary64

/-!
# Number literals

A number literal of a query keeps the text it was written with; its value is read from the text
when it is asked for.

## Main definitions

* `NumberLiteral`: the form and the text of a literal
* `NumberLiteral.toInt?`: the value of an integer literal, if it has 64 bits
* `NumberLiteral.toBinary64?`: the floating-point number nearest to the value
-/

namespace PipeQuery

/-- Whether a number is written with a point or a power of ten. -/
inductive NumberLiteral.Form where
  | integer
  | decimal
deriving DecidableEq

/-- A number literal. -/
structure NumberLiteral where
  form : NumberLiteral.Form
  text : String
deriving DecidableEq

namespace NumberLiteral

/-- The integers of 64 bits with a sign. -/
def isInt64 (n : Int) : Bool := -Int.pow 2 63 ≤ n && n < Int.pow 2 63

/-- The value of an integer literal, if it is an integer of 64 bits. -/
def toInt? (l : NumberLiteral) : Option Int :=
  match l.form with
  | .integer => (readInteger? l.text.toList).filter isInt64
  | .decimal => none

/-- The floating-point number nearest to the value of a literal. -/
def toBinary64? (l : NumberLiteral) : Option Binary64 :=
  (Numeral.ofText? l.text.toList).map Binary64.ofNumeral

end NumberLiteral

end PipeQuery

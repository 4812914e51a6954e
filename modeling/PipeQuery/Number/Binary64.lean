import PipeQuery.Number.Numeral

/-!
# Binary floating-point numbers

The 64-bit pattern of a numeral. The finite patterns without a sign, read as natural numbers, are
in the order of the numbers they stand for, so that rounding is a matter of natural numbers: a
number is measured in the least positive unit, and all but its first 53 bits are rounded off, to
the even neighbour if it lies halfway.

## Main definitions

* `roundDiv`: a quotient rounded to the nearest natural number, halves to the even one
* `Binary64.nearest`: the pattern nearest to a quotient
* `Binary64.ofNumeral`: the pattern of a numeral
* `Binary64.overflows`: whether a numeral is too great for a pattern
* `Binary64.hex`: a pattern in hexadecimal digits
-/

namespace PipeQuery

/-- The quotient of `n` and `d` rounded to the nearest natural number, halves to the even one. -/
def roundDiv (n d : Nat) : Nat :=
  let q := n / d
  let r := n % d
  if 2 * r < d then q
  else if d < 2 * r then q + 1
  else q + q % 2

/-- The pattern of a binary floating-point number. -/
abbrev Binary64 := BitVec 64

namespace Binary64

/-- The pattern of infinity, as a natural number. -/
def infinity : Nat := 0x7ff <<< 52

/-- The pattern nearest to `n / d`. The quotient is taken in units of the least positive number,
`2 ^ (-1074)`; `excess` is how many bits it has beyond 53, so that a unit of the result is
`2 ^ excess` of them, and a pattern is such a unit for each of the `2 ^ 52` places below the next. -/
def nearest (n d : Nat) : Nat :=
  let units := n <<< 1074
  -- A quotient below `2 ^ 53` has no bits to round off but those behind the point.
  let excess := (units / d).log2 - 52
  min infinity ((excess <<< 52) + roundDiv units (d <<< excess))

/-- The pattern nearest to `digits * 10 ^ exponent`. What is at least `10 ^ 309` is beyond the
greatest number, and what is less than `10 ^ (-324)` is less than half the least positive one. -/
def nearestDecimal (digits : Nat) (exponent : Int) : Nat :=
  if digits = 0 then 0
  else
    -- The number lies between the powers of ten `places - 1` and `places`.
    let places : Int := (Nat.toDigits 10 digits).length + exponent
    if 309 < places then infinity
    else if places < -323 then 0
    else if 0 ≤ exponent then nearest (digits * Nat.pow 10 exponent.toNat) 1
    else nearest digits (Nat.pow 10 (-exponent).toNat)

/-- The pattern of a magnitude. -/
def ofMagnitude : Magnitude → Nat
  | .finite digits exponent => nearestDecimal digits exponent
  | .infinite => infinity
  | .undefined => infinity + (1 <<< 51)

/-- The pattern of a numeral, nearest to its exact value. -/
def ofNumeral (x : Numeral) : Binary64 :=
  BitVec.ofNat 64 (ofMagnitude x.magnitude + if x.isNegative then 1 <<< 63 else 0)

/-- Whether a numeral is rounded to infinity without being written so. -/
def overflows (x : Numeral) : Bool :=
  x.magnitude ≠ .infinite && ofMagnitude x.magnitude == infinity

/-- A pattern in hexadecimal digits. -/
def hex (b : Binary64) : String :=
  let ds := Nat.toDigits 16 b.toNat
  "".pushn '0' (16 - ds.length) ++ String.ofList ds

end Binary64

end PipeQuery

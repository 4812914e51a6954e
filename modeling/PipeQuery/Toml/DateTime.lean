import PipeQuery.Toml.Scalar

/-!
# TOML dates and times

A date, a time of day, or both with an optional offset from universal time. The seconds of a time
may be left out.

## Main definitions

* `Toml.date`, `Toml.time`, `Toml.offset`: readers of the parts
* `Toml.isDateTime`: whether a text is a date, a time or both
-/

namespace PipeQuery.Toml

/-- Read a number of two digits from `low` to `high`. -/
def twoDigits (low high : Nat) : Reader Nat
  | c :: d :: cs =>
    let n := digitsValue [c, d]
    if c.isDigit && d.isDigit && low ≤ n && n ≤ high then some (n, cs) else none
  | _ => none

/-- Whether a year has a day more than others. -/
def isLeapYear (year : Nat) : Bool := year % 4 = 0 && (year % 100 ≠ 0 || year % 400 = 0)

/-- The number of days of a month. -/
def daysOf (year month : Nat) : Nat :=
  if month = 2 then if isLeapYear year then 29 else 28
  else if month ∈ [4, 6, 9, 11] then 30 else 31

/-- Read a date. -/
def date : Reader Unit := do
  let century ← twoDigits 0 99
  let year ← twoDigits 0 99
  exactly "-"
  let month ← twoDigits 1 12
  exactly "-"
  let _ ← twoDigits 1 (daysOf (100 * century + year) month)

/-- Read the digits of a fraction. -/
def fraction : Reader Unit := fun cs =>
  if cs.head?.any Char.isDigit then some ((), cs.dropWhile Char.isDigit) else none

/-- Read a time of day. A minute may have a second more than others. -/
def time : Reader Unit := do
  let _ ← twoDigits 0 23
  exactly ":"
  let _ ← twoDigits 0 59
  if ← startsWith ':' then
    exactly ":"
    let _ ← twoDigits 0 60
    if ← startsWith '.' then
      exactly "."
      fraction

/-- Read an offset from universal time if there is one. -/
def offset : Reader Unit
  | [] => some ((), [])
  | c :: cs =>
    if c = 'Z' || c = 'z' then some ((), cs)
    else if c = '+' || c = '-' then span cs
    else none
where
  /-- Read the hours and minutes of an offset. -/
  span : Reader Unit := do
    let _ ← twoDigits 0 23
    exactly ":"
    let _ ← twoDigits 0 59

/-- Read a time with an optional offset behind the mark or space that parts it from a date. -/
def timeOfDate : Reader Unit
  | [] => some ((), [])
  | c :: cs => if c ∈ ['T', 't', ' '] then (time *> offset) cs else none

/-- Whether a text is a date, a time or both. Only a time with a date has an offset. -/
def isDateTime (cs : List Char) : Bool :=
  match (date *> timeOfDate <|> time) cs with
  | some ((), rest) => rest.isEmpty
  | none => false

end PipeQuery.Toml

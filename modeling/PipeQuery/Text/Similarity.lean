/-!
# Similar words

How alike two words are: the share of each word's characters that the other has near the same
place, and the share of those that come in the same order.

## Main definitions

* `matching`: the characters that two words have in common near the same places
* `similarity`: how alike two words are, from 0 to 1
-/

namespace PipeQuery

/-- The places of `bs` that are taken, from the place `j` on, with the first free one from `low` up
to `high` that holds the character `c` taken too, if there is one. -/
def takePlace (c : Char) (low high : Nat) : Nat → List (Char × Bool) → Option (List (Char × Bool))
  | _, [] => none
  | j, (b, taken) :: bs =>
    if low ≤ j ∧ j < high ∧ b = c ∧ taken = false then some ((b, true) :: bs)
    else (takePlace c low high (j + 1) bs).map ((b, taken) :: ·)

/-- The characters of `as`, from the place `i` on, that find a place among `bs` at most `reach`
away, and the places with those that are taken marked. -/
def matchFrom (reach : Nat) : Nat → List Char → List (Char × Bool) → List Char × List (Char × Bool)
  | _, [], bs => ([], bs)
  | i, a :: as, bs =>
    match takePlace a (i - reach) (i + reach + 1) 0 bs with
    | some bs =>
      let (found, bs) := matchFrom reach (i + 1) as bs
      (a :: found, bs)
    | none => matchFrom reach (i + 1) as bs

/-- The characters that two words have in common near the same places, in the order of either
word. -/
def matching (as bs : List Char) : List Char × List Char :=
  let reach := max as.length bs.length / 2 - 1
  let (found, places) := matchFrom reach 0 as (bs.map (·, false))
  (found, (places.filter (·.2)).map (·.1))

/-- How alike two words are. -/
def similarity (a b : String) : Float :=
  let as := a.toList
  let bs := b.toList
  let (inFirst, inSecond) := matching as bs
  let common := inFirst.length
  -- Two characters in each other's place count as one swap.
  let swapped := ((inFirst.zip inSecond).countP fun (c, d) => c ≠ d) / 2
  if as.isEmpty && bs.isEmpty then 1
  else if common = 0 then 0
  else
    (common.toFloat / as.length.toFloat + common.toFloat / bs.length.toFloat +
      (common - swapped).toFloat / common.toFloat) / 3

end PipeQuery

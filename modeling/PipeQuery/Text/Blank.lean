/-!
# Blank characters

Two classes of blank characters. The `White_Space` property of Unicode decides where a word
ends. The four characters that separate tokens are those of it that a source is laid out with.

## Main definitions

* `blankRanges`, `isBlank`: the characters with the property `White_Space`
* `isLayout`: space, tab, carriage return and line feed

## Main results

* `isBlank_of_isLayout`: a layout character is blank
-/

namespace PipeQuery

/-- The ranges of code points with the property `White_Space`. -/
def blankRanges : List (Nat × Nat) :=
  [(0x09, 0x0d), (0x20, 0x20), (0x85, 0x85), (0xa0, 0xa0), (0x1680, 0x1680), (0x2000, 0x200a),
    (0x2028, 0x2029), (0x202f, 0x202f), (0x205f, 0x205f), (0x3000, 0x3000)]

/-- Whether a character has the property `White_Space`. -/
def isBlank (c : Char) : Bool :=
  blankRanges.any fun (first, last) => first ≤ c.toNat && c.toNat ≤ last

/-- Whether a character separates tokens. -/
def isLayout (c : Char) : Bool :=
  c = ' ' || c = '\t' || c = '\r' || c = '\n'

theorem isBlank_of_isLayout {c : Char} (h : isLayout c = true) :
    isBlank c = true := by
  simp only [isLayout, Bool.or_eq_true, decide_eq_true_eq] at h
  rcases h with ((rfl | rfl) | rfl) | rfl <;> decide

end PipeQuery

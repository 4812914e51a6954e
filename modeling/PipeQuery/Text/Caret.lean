/-!
# Pointing at a character

A place in a source is shown by its line and, below it, a caret under the character.

## Main definitions

* `lines`: the lines of a text
* `caret?`: a line of a text and a caret below one of its columns
-/

namespace PipeQuery

/-- A line, written backwards, without a carriage return at its end. -/
def dropReturn : List Char → List Char
  | '\r' :: cs => cs
  | cs => cs

/-- The lines of a text, behind the characters of the current one, which are given backwards. -/
def linesFrom : List Char → List Char → List (List Char)
  | [], [] => []
  | current, [] => [current.reverse]
  | current, c :: cs =>
    if c = '\n' then (dropReturn current).reverse :: linesFrom [] cs else linesFrom (c :: current) cs

/-- The lines of a text. A line ends at a line feed, with the carriage return before it if there is
one; behind the last line feed a line starts only if text follows. -/
def lines (cs : List Char) : List (List Char) := linesFrom [] cs

/-- What stands above the caret's own column: tabs stay, so that the caret is not moved by them. -/
def caretPad (line : List Char) (column : Nat) : List Char :=
  (line.take (column - 1)).map fun c => if c = '\t' then '\t' else ' '

/-- The line of a source with a given number and, below it, a caret at a column. Both count from
one. -/
def caret? (source : String) (line column : Nat) : Option String :=
  if line = 0 then none
  else
    (lines source.toList)[line - 1]?.map fun text =>
      String.ofList (text ++ '\n' :: caretPad text column ++ ['^'])

end PipeQuery

import PipeQuery.Text.Position

/-!
# Lexing errors

A source without tokens at some place: a literal, a quoted name or a comment that is never
closed, or a character no token starts with.

## Main definitions

* `Lexer.Cause`: what is wrong
* `Lexer.Error`, `Error.message`: a cause at a place, and its message
-/

namespace PipeQuery.Lexer

/-- Why no token could be read. -/
inductive Cause where
  | openString
  | openName
  | openComment
  /-- No token of the mode in force starts with this character. -/
  | unexpected (found : Char)
deriving DecidableEq

/-- What a message says of a cause. -/
def Cause.message : Cause → String
  | openString => "unterminated string literal"
  | openName => "unterminated quoted identifier"
  | openComment => "unterminated block comment"
  | unexpected found => "token recognition error at: '" ++ found.toString ++ "'"

/-- A place at which no token could be read: the start of what is never closed, or the unexpected
character. -/
structure Error where
  cause : Cause
  position : Position
deriving DecidableEq

/-- The message of an error, with its line and column. -/
def Error.message (e : Error) : String :=
  "line " ++ toString e.position.line ++ ":" ++ toString e.position.column ++ " " ++
    e.cause.message

end PipeQuery.Lexer

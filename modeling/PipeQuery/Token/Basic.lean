import PipeQuery.Json.Value
import PipeQuery.Text.Position
import PipeQuery.Token.Kind

/-!
# Tokens

A token is a kind, the exact text it was written with, and the place of that text in the source.

## Main definitions

* `Span`: where a token stands; `Span.origin` is the empty span at the start of a source
* `Token`, `Token.eof`: a token, and the token that marks the end of the input
* `Token.display`: the one-line form of a token in listings
* `Span.toJson`, `Token.toJson`: their JSON forms
-/

namespace PipeQuery

/-- Where a token stands: the bytes from `start` up to `stop`, and the line and column of the
first of them. -/
structure Span where
  start : Nat
  stop : Nat
  line : Nat
  column : Nat
deriving DecidableEq, Inhabited

namespace Span

/-- The empty span at the start of a source. -/
def origin : Span := ⟨0, 0, 1, 1⟩

/-- The span from a position to another. -/
def between (p q : Position) : Span := ⟨p.offset, q.offset, p.line, p.column⟩

/-- The number of bytes covered. -/
def length (s : Span) : Nat := s.stop - s.start

/-- Whether the span covers no bytes. -/
def isEmpty (s : Span) : Bool := s.start == s.stop

/-- The span as a JSON object. -/
def toJson (s : Span) : Json :=
  .object [("start", .nat s.start), ("stop", .nat s.stop), ("line", .nat s.line),
    ("column", .nat s.column)]

end Span

/-- A token: its kind, its text and its place. -/
structure Token where
  kind : Token.Kind
  text : String
  span : Span
deriving DecidableEq, Inhabited

namespace Token

/-- The token that marks the end of the input. -/
def eof (span : Span) : Token := ⟨.endOfInput, "<EOF>", span⟩

/-- Whether the token marks the end of the input. -/
def isEof (t : Token) : Bool := t.kind == .endOfInput

/-- The one-line form of a token: its bytes, text, kind, line and column. -/
def display (t : Token) : String :=
  "[@" ++ toString t.span.start ++ ":" ++ toString t.span.stop ++ "='" ++ t.text ++ "',<" ++
    t.kind.symbol ++ ">," ++ toString t.span.line ++ ":" ++ toString t.span.column ++ "]"

/-- The token as a JSON object. -/
def toJson (t : Token) : Json :=
  .object [("kind", .string t.kind.symbol), ("text", .string t.text), ("span", t.span.toJson)]

theorem isEof_iff {t : Token} : t.isEof = true ↔ t.kind = .endOfInput := by
  simp [isEof]

@[simp]
theorem isEof_eof (span : Span) : (eof span).isEof = true := rfl

end Token

end PipeQuery

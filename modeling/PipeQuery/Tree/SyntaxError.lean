import PipeQuery.Grammar.Rule
import PipeQuery.Token.Basic
import PipeQuery.Token.KindSet

/-!
# Syntax errors

A syntax error is found by a rule at a token. It is kept as its cause and the token it points
at; the message is made from these.

## Main definitions

* `SyntaxError.Cause`, `SyntaxError`: what is wrong, in which rule, and at which token
* `SyntaxError.message`, `SyntaxError.display`: its wording, without and with the position
* `SyntaxError.toJson`: its JSON form
* `Failure`, `Failure.display`: why a parse has no tree
-/

namespace PipeQuery

open Token (KindSet)

namespace SyntaxError

/-- What is wrong at a token. -/
inductive Cause where
  /-- The token is none of the kinds a rule needs here. -/
  | mismatched
  /-- The token stands in front of one the rule needs, and is dropped. -/
  | extraneous
  /-- No alternative of the rule starts with the token. -/
  | noViable
  /-- A left-recursive rule was entered with a floor above the highest it accepts. -/
  | floorTooHigh (floor highest : Nat)
  /-- More rules are open than allowed. -/
  | tooDeep (limit : Nat)
deriving DecidableEq

/-- The class of a cause. A dropped token counts as a mismatched one. -/
def Cause.className : Cause → String
  | mismatched | extraneous => "mismatched_token"
  | noViable => "no_viable_alternative"
  | floorTooHigh _ _ => "failed_predicate"
  | tooDeep _ => "grammar_too_deep"

/-- The condition that a floor fails. -/
def floorCondition (floor highest : Nat) : String := toString floor ++ " <= " ++ toString highest

/-- The class of a cause, with what belongs to it, as a JSON object. -/
def Cause.toJson (cause : Cause) : Json :=
  .object (("type", .string cause.className) ::
    match cause with
    | floorTooHigh floor highest => [("predicate", .string (floorCondition floor highest))]
    | tooDeep limit => [("max_depth", .nat limit)]
    | _ => [])

end SyntaxError

/-- An error at a token. -/
structure SyntaxError where
  cause : SyntaxError.Cause
  /-- The innermost rule open at the error. -/
  rule : Rule
  /-- The place of the token in its stream. -/
  index : Nat
  token : Token
  /-- The kinds that would have been accepted. -/
  expected : KindSet
deriving DecidableEq

namespace SyntaxError

/-- How messages quote a token. -/
def quoted (t : Token) : String := if t.isEof then "<EOF>" else "'" ++ t.text ++ "'"

/-- The wording of an error. -/
def message (e : SyntaxError) : String :=
  match e.cause with
  | .mismatched => "mismatched input " ++ quoted e.token ++ " expecting " ++ e.expected.display
  | .extraneous => "extraneous input " ++ quoted e.token ++ " expecting " ++ e.expected.display
  | .noViable => "no viable alternative at input " ++ quoted e.token
  | .floorTooHigh floor highest =>
    "rule " ++ e.rule.name ++ " failed predicate: \x7b" ++ floorCondition floor highest ++ "\x7d?"
  | .tooDeep limit =>
    "rule nesting deeper than " ++ toString limit ++ " at input " ++ quoted e.token

/-- The wording of an error behind its line and column. -/
def display (e : SyntaxError) : String :=
  "line " ++ toString e.token.span.line ++ ":" ++ toString e.token.span.column ++ " " ++ e.message

/-- The error as a JSON object. -/
def toJson (e : SyntaxError) : Json :=
  .object [("kind", e.cause.toJson), ("rule", .string e.rule.name), ("token_index", .nat e.index),
    ("found", .string e.token.kind.symbol), ("text", .string e.token.text),
    ("expected", e.expected.toJson), ("offset", .nat e.token.span.start),
    ("line", .nat e.token.span.line), ("column", .nat e.token.span.column),
    ("message", .string e.message)]

end SyntaxError

/-- Why a parse has no tree. -/
inductive Failure where
  /-- Looking for a place to go on after the error, the parser ran into the end of the input. -/
  | unrecoverable (e : SyntaxError)
  /-- The parse was to stop at its first error. -/
  | bailed (e : SyntaxError)
  /-- More rules were open than allowed. -/
  | tooDeep (e : SyntaxError)
  /-- There was nothing to parse. -/
  | emptyInput
deriving DecidableEq

namespace Failure

/-- The error behind a failure. -/
def error? : Failure → Option SyntaxError
  | unrecoverable e | bailed e | tooDeep e => some e
  | emptyInput => none

/-- The wording of a failure. -/
def display : Failure → String
  | unrecoverable e => "unrecoverable syntax error: " ++ e.display
  | bailed e => "syntax error: " ++ e.display
  | tooDeep e => "input nested too deeply: " ++ e.display
  | emptyInput => "empty input"

end Failure

end PipeQuery

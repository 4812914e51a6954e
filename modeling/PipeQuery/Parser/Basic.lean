import PipeQuery.Parser.Rules
import PipeQuery.Tree.Basic

/-!
# Parsing

The two entries of the parser: a full query, and an expression that stands alone.

## Main definitions

* `Parser.finish`: the tree or failure at the end of a parse
* `parseTokens`: the tree of a query
* `parseExpressionTokens`: the tree of an expression, over a floor
-/

namespace PipeQuery

namespace Parser

/-- The state a run ends in, however it ends. -/
def endState (run : Run Unit) (s : State) : State :=
  match run s with
  | .ok _ s => s
  | .error _ s => s

/-- What a parse comes to: its tree, unless there is a reason why it has none. -/
def finish (s : State) : Except Failure ParseTree :=
  match s.failure, s.arena.finish s.stream.tokens with
  | some failure, _ => .error failure
  | none, some tree => .ok tree
  | none, none => .error .emptyInput

/-- A boolean expression and what stands behind it, which is an error and is dropped. -/
def standalone (options : Options) (floor : Nat) : Run Unit := do
  parseRule options options.maxDepth .booleanExpression floor
  -- No rule is open any more, so what is left over belongs to the root.
  if (← ahead 1) ≠ .endOfInput then
    fun s =>
      let root := s.arena.root.getD 0
      let error : SyntaxError :=
        ⟨.mismatched, .booleanExpression, s.cursor, s.stream.peek 1, .ofList [.endOfInput]⟩
      match report options.strategy root error s with
      | .error a s => .error a s
      | .ok () s =>
        let s := s.discardUntil root ∅ s.stream.remaining
        .ok () { s with arena := s.arena.close root s.cursor }

/-- Run an entry of the parser on tokens, unless there are none before the end of the input. -/
def run (entry : Run Unit) (tokens : List Token) : Except Failure ParseTree :=
  let stream := TokenStream.ofList tokens
  if stream.isEmpty then .error .emptyInput
  else finish (endState entry (.start stream))

end Parser

/-- Parse the tokens of a query. -/
def parseTokens (options : Options) (tokens : List Token) : Except Failure ParseTree :=
  Parser.run (Parser.parseRule options options.maxDepth .singleStatement 0) tokens

/-- Parse the tokens of an expression. Operators below the floor are not taken into it. -/
def parseExpressionTokens (options : Options) (floor : Nat) (tokens : List Token) :
    Except Failure ParseTree :=
  Parser.run (Parser.standalone options floor) tokens

end PipeQuery

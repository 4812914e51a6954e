import PipeQuery.Lexer.Basic
import PipeQuery.Parser.Basic

/-!
# Parsing a source

A source is split into tokens, and the tokens are parsed. Either step can fail.

## Main definitions

* `SourceError`: the error of the step that failed
* `Entry`: what a source is taken for
* `parseSource`: the tree of a source
-/

namespace PipeQuery

/-- Why a source has no tree. -/
inductive SourceError where
  | lexical (e : Lexer.Error)
  | syntactic (f : Failure)
deriving DecidableEq

/-- The wording of an error. -/
def SourceError.message : SourceError → String
  | lexical e => e.message
  | syntactic f => f.display

/-- What a source is taken for: a query, or an expression that stands alone. -/
inductive Entry where
  | statement
  /-- Operators below the floor are not taken into the expression. -/
  | expression (floor : Nat)
deriving DecidableEq

namespace Entry

/-- The lexer mode in which a source starts. -/
def mode : Entry → Lexer.Mode
  | statement => .command
  | expression _ => .expression

/-- The tree of tokens. -/
def parse (options : Options) (tokens : List Token) : Entry → Except Failure ParseTree
  | statement => parseTokens options tokens
  | expression floor => parseExpressionTokens options floor tokens

end Entry

/-- The tree of a source. -/
def parseSource (options : Options) (entry : Entry) (source : String) :
    Except SourceError ParseTree :=
  match tokenizeIn entry.mode source with
  | .error e => .error (.lexical e)
  | .ok tokens => (entry.parse options tokens).mapError .syntactic

end PipeQuery

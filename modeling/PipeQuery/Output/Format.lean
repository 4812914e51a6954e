import PipeQuery.Tree.Text

/-!
# Output formats

What is printed of a parsed query.

## Main definitions

* `Format`: the formats; `Format.ofName?`, `Format.ofText`: the format with a name, by letter or
  letter case apart
* `tokenLines`, `errorLines`: tokens and errors, one on a line
* `ParseTree.render`: a tree in a format

## Main results

* `Format.ofName?_name`: a format is found by its name
-/

namespace PipeQuery

/-- What is printed of a parsed query. -/
inductive Format where
  | tree
  | json
  | tokens
  | diagnostics
deriving DecidableEq, Inhabited

namespace Format

/-- The name of a format. -/
def name : Format → String
  | tree => "tree"
  | json => "json"
  | tokens => "tokens"
  | diagnostics => "diagnostics"

/-- The format with a given name. -/
def ofName? (s : String) : Option Format := [tree, json, tokens, diagnostics].find? (·.name = s)

/-- The format with a given name, letter case apart, or what to say of a name that none has. -/
def ofText (s : String) : Except String Format :=
  match ofName? (s.map Char.toLower) with
  | some format => .ok format
  | none => .error ("invalid variant: " ++ s)

theorem ofName?_name (f : Format) : ofName? f.name = some f := by
  cases f <;> rfl

/-- The JSON form of a format: its name. -/
def toJson (f : Format) : Json := .string f.name

end Format

/-- Tokens, one on a line. -/
def tokenLines (tokens : List Token) : String :=
  String.join (tokens.map fun token => token.display ++ "\n")

/-- Errors, one on a line. -/
def errorLines (errors : List SyntaxError) : String :=
  String.join (errors.map fun e => e.display ++ "\n")

/-- A tree in a format. A tree or its JSON form can be spread over lines, the other formats have
one layout. -/
def ParseTree.render (t : ParseTree) (format : Format) (pretty : Bool) : String :=
  match format with
  | .tree => if pretty then t.outline else t.lisp
  | .json => t.jsonText pretty
  | .tokens => tokenLines t.tokens.toList
  | .diagnostics => errorLines t.diagnostics

end PipeQuery

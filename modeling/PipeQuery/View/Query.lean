import PipeQuery.View.Command

/-!
# Queries in a tree

A query is a source command, or a shorter query with one more command behind a pipe. Its pipeline
lists the commands from the source on.

## Main definitions

* `Query`: what a `query` says
* `ParseTree.query?`, `ParseTree.statementQuery?`: the query at a node, and the query of a tree
* `ParseTree.pipeline`: the commands of a query, in order
-/

namespace PipeQuery

/-- What a `query` says. -/
inductive Query where
  | single (command : Command)
  /-- Everything before the last pipe, and the command behind it. -/
  | composite (before : NodeId) (command : Command)
deriving DecidableEq

namespace ParseTree

variable (t : ParseTree)

/-- What a `query` says. -/
def query? (id : NodeId) : Option Query :=
  match t.label id with
  | .singleCommandQuery => return .single (← t.command? (← t.childNode? id 0))
  | .compositeQuery => do
    return .composite (← t.childNode? id 0) (← t.command? (← t.childNode? id 1))
  | _ => none

/-- Whether a node is the root of a full query. -/
def isStatement (id : NodeId) : Bool := t.label id = .singleStatement

/-- The query of a full query's tree. -/
def statementQuery? : Option Query :=
  if t.isStatement t.root then (t.childNodes t.root).findSome? t.query? else none

/-- The commands of a query, the last of them first, through at most `n` pipes. -/
def commandsBack : Nat → Query → List Command
  | _, .single command => [command]
  | 0, .composite _ command => [command]
  | n + 1, .composite before command =>
    command :: ((t.query? before).map (commandsBack n)).getD []

/-- The commands of a query, from the source on. A query has fewer pipes than its tree has nodes. -/
def pipeline (q : Query) : List Command := (t.commandsBack t.size q).reverse

end ParseTree

end PipeQuery

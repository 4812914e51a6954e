import PipeQuery.View.Expression

/-!
# Commands in a tree

What the commands of a query say: the items of their lists and the nodes of their expressions. An
item of a list that an error left incomplete is passed over.

## Main definitions

* `Field`, `OrderExpression`, `ProjectClause`: the items of commands
* `Command`, `Command.Action`: a command and the node it stands at
* `Command.name`: the keyword of a command
* `ParseTree.field?`, `ParseTree.orderExpression?`, `ParseTree.projectClause?`,
  `ParseTree.command?`: what is said by a node
-/

namespace PipeQuery

/-- What a `field` says: an expression, and the name it is assigned to if there is one. -/
structure Field where
  name : Option QualifiedName
  expression : NodeId
deriving DecidableEq

/-- What an `orderExpression` says: a sort key, and how it is sorted where that is written. -/
structure OrderExpression where
  expression : NodeId
  order : Option SortOrder
  nulls : Option NullsOrder
deriving DecidableEq

/-- What a `projectClause` says. -/
inductive ProjectClause where
  | keep (name : String)
  | rename (new old : String)
deriving DecidableEq

/-- What a command does. -/
inductive Command.Action where
  | explainCmd (query : NodeId)
  | fromCmd (sources : List String)
  | rowCmd (fields : List Field)
  | evalCmd (fields : List Field)
  | statsCmd (fields : List Field) (groups : List QualifiedName)
  | whereCmd (condition : NodeId)
  | limitCmd (count : Token)
  | sortCmd (orders : List OrderExpression)
  | projectCmd (clauses : List ProjectClause)
deriving DecidableEq

/-- A command: its own node, below the `sourceCommand` or `processingCommand`, and what it does. -/
structure Command where
  node : NodeId
  action : Command.Action
deriving DecidableEq

/-- The keyword of a command. -/
def Command.name (c : Command) : String :=
  match c.action with
  | .explainCmd _ => "explain"
  | .fromCmd _ => "from"
  | .rowCmd _ => "row"
  | .evalCmd _ => "eval"
  | .statsCmd _ _ => "stats"
  | .whereCmd _ => "where"
  | .limitCmd _ => "limit"
  | .sortCmd _ => "sort"
  | .projectCmd _ => "project"

namespace ParseTree

variable (t : ParseTree)

/-- The first child node of a node with a label. -/
def childLabelled? (id : NodeId) (label : Label) : Option NodeId :=
  (t.childNodes id).find? fun c => t.label c = label

/-- What a `field` says. -/
def field? (id : NodeId) : Option Field :=
  if t.label id = .field then do
    let first ← t.childNode? id 0
    if t.label first = .qualifiedName then
      return ⟨some (← t.qualifiedName? first), ← t.childNode? id 1⟩
    else return ⟨none, first⟩
  else none

/-- The fields of a command, if it has a list of them. -/
def fields? (id : NodeId) : Option (List Field) :=
  (t.childLabelled? id .fields).map fun list => (t.childNodes list).filterMap t.field?

/-- The names a command groups by. -/
def groups (id : NodeId) : List QualifiedName :=
  match t.childLabelled? id .qualifiedNames with
  | some list => (t.childNodes list).filterMap t.qualifiedName?
  | none => []

/-- The last of the words that are read off the matched tokens of a node. -/
def lastWord? {α : Type} (ofKind? : Token.Kind → Option α) (id : NodeId) : Option α :=
  ((t.directTokens id).filterMap fun token => ofKind? token.kind).getLast?

/-- What an `orderExpression` says. -/
def orderExpression? (id : NodeId) : Option OrderExpression :=
  if t.label id = .orderExpression then
    (t.childNode? id 0).map fun expression =>
      ⟨expression, t.lastWord? SortOrder.ofKind? id, t.lastWord? NullsOrder.ofKind? id⟩
  else none

/-- What a `projectClause` says: the first of its two names is the new one. -/
def projectClause? (id : NodeId) : Option ProjectClause :=
  if t.label id = .projectClause then
    match (t.childNodes id).filterMap t.sourceName? with
    | new :: old :: _ => some (.rename new old)
    | [name] => some (.keep name)
    | [] => none
  else none

/-- What the node of a single command does. -/
def action? (id : NodeId) : Option Command.Action :=
  match t.label id with
  -- The query stands in the brackets of the node between.
  | .explainCommand => return .explainCmd (← t.childNode? (← t.childNode? id 0) 0)
  | .fromCommand => some (.fromCmd ((t.childNodes id).filterMap t.sourceName?))
  | .rowCommand => return .rowCmd (← t.fields? id)
  | .evalCommand => return .evalCmd (← t.fields? id)
  | .statsCommand => return .statsCmd (← t.fields? id) (t.groups id)
  | .whereCommand => return .whereCmd (← t.childNode? id 0)
  | .limitCommand =>
    return .limitCmd (← (t.directTokens id).find? fun token => token.kind = .integer)
  | .sortCommand => some (.sortCmd ((t.childNodes id).filterMap t.orderExpression?))
  | .projectCommand => some (.projectCmd ((t.childNodes id).filterMap t.projectClause?))
  | _ => none

/-- The command at a node: of a `sourceCommand` or `processingCommand`, the one in it. -/
def command? (id : NodeId) : Option Command :=
  match t.label id with
  | .sourceCommand | .processingCommand => do
    -- These rules only choose a command, and none of them is chosen by another, so the node right
    -- below is the command's own and says everything.
    let inner ← t.childNode? id 0
    return ⟨inner, ← t.action? inner⟩
  | _ => (t.action? id).map (Command.mk id)

end ParseTree

end PipeQuery

/-!
# Grammar rules and node labels

The rules of the grammar, and the labels of parse tree nodes. A rule with labelled alternatives
has one label for each of them, and besides them the label of the bare rule, which is left on a
node whose alternative an error kept undecided.

## Main definitions

* `Rule`, `Rule.all`, `Rule.id`, `Rule.name`: the rules in the order of the grammar
* `Rule.isLeftRecursive`: the rules that are parsed by precedence climbing
* `Label`, `Label.name`: the labels of nodes
* `Label.rule`, `Label.ofRule`, `Label.isAlternative`: how labels and rules belong together

## Main results

* `Rule.all_getElem?_id`, `Rule.mem_all`: the list of rules is complete and in order
* `Label.rule_ofRule`, `Label.isAlternative_iff`: the labels that are no alternatives are the
  labels of the bare rules
-/

namespace PipeQuery

/-- The rules of the grammar. -/
inductive Rule where
  /-- `query EOF` -/
  | singleStatement
  /-- `sourceCommand ('|' processingCommand)*` -/
  | query
  /-- `explainCommand | fromCommand | rowCommand` -/
  | sourceCommand
  /-- `evalCommand | limitCommand | projectCommand | sortCommand | statsCommand | whereCommand` -/
  | processingCommand
  /-- `WHERE booleanExpression` -/
  | whereCommand
  /-- Logical `not`, `and` and `or` over value expressions. -/
  | booleanExpression
  /-- `operatorExpression (comparisonOperator operatorExpression)?` -/
  | valueExpression
  /-- Arithmetic over primary expressions. -/
  | operatorExpression
  /-- Constants, names, expressions in parentheses and function calls. -/
  | primaryExpression
  /-- `ROW fields` -/
  | rowCommand
  /-- `field (',' field)*` -/
  | fields
  /-- `booleanExpression | qualifiedName '=' booleanExpression` -/
  | field
  /-- `FROM sourceIdentifier (',' sourceIdentifier)*` -/
  | fromCommand
  /-- `EVAL fields` -/
  | evalCommand
  /-- `STATS fields (BY qualifiedNames)?` -/
  | statsCommand
  /-- The name of a source or column. -/
  | sourceIdentifier
  /-- `identifier ('.' identifier)*` -/
  | qualifiedName
  /-- `qualifiedName (',' qualifiedName)*` -/
  | qualifiedNames
  /-- A bare or quoted name. -/
  | identifier
  /-- A literal value. -/
  | constant
  /-- `LIMIT INTEGER_LITERAL` -/
  | limitCommand
  /-- `SORT orderExpression (',' orderExpression)*` -/
  | sortCommand
  /-- `booleanExpression (ASC | DESC)? (NULLS (FIRST | LAST))?` -/
  | orderExpression
  /-- `PROJECT projectClause (',' projectClause)*` -/
  | projectCommand
  /-- `sourceIdentifier | sourceIdentifier '=' sourceIdentifier` -/
  | projectClause
  /-- `TRUE | FALSE` -/
  | booleanValue
  /-- A decimal or integer literal. -/
  | number
  /-- A string literal. -/
  | string
  /-- `== != < <= > >=` -/
  | comparisonOperator
  /-- `EXPLAIN subqueryExpression` -/
  | explainCommand
  /-- `'[' query ']'` -/
  | subqueryExpression
deriving DecidableEq, Inhabited

namespace Rule

/-- The place of a rule in the grammar. -/
def id (r : Rule) : Nat := r.ctorIdx

/-- Every rule, in the order of the grammar. -/
def all : List Rule :=
  [.singleStatement, .query, .sourceCommand, .processingCommand, .whereCommand,
    .booleanExpression, .valueExpression, .operatorExpression, .primaryExpression, .rowCommand,
    .fields, .field, .fromCommand, .evalCommand, .statsCommand, .sourceIdentifier,
    .qualifiedName, .qualifiedNames, .identifier, .constant, .limitCommand, .sortCommand,
    .orderExpression, .projectCommand, .projectClause, .booleanValue, .number, .string,
    .comparisonOperator, .explainCommand, .subqueryExpression]

theorem all_getElem?_id (r : Rule) : all[r.id]? = some r := by
  cases r <;> rfl

theorem mem_all (r : Rule) : r ∈ all :=
  List.mem_of_getElem? (all_getElem?_id r)

/-- The name of a rule in the grammar. -/
def name : Rule → String
  | singleStatement => "singleStatement"
  | query => "query"
  | sourceCommand => "sourceCommand"
  | processingCommand => "processingCommand"
  | whereCommand => "whereCommand"
  | booleanExpression => "booleanExpression"
  | valueExpression => "valueExpression"
  | operatorExpression => "operatorExpression"
  | primaryExpression => "primaryExpression"
  | rowCommand => "rowCommand"
  | fields => "fields"
  | field => "field"
  | fromCommand => "fromCommand"
  | evalCommand => "evalCommand"
  | statsCommand => "statsCommand"
  | sourceIdentifier => "sourceIdentifier"
  | qualifiedName => "qualifiedName"
  | qualifiedNames => "qualifiedNames"
  | identifier => "identifier"
  | constant => "constant"
  | limitCommand => "limitCommand"
  | sortCommand => "sortCommand"
  | orderExpression => "orderExpression"
  | projectCommand => "projectCommand"
  | projectClause => "projectClause"
  | booleanValue => "booleanValue"
  | number => "number"
  | string => "string"
  | comparisonOperator => "comparisonOperator"
  | explainCommand => "explainCommand"
  | subqueryExpression => "subqueryExpression"

/-- The rule with a given name. -/
def ofName? (s : String) : Option Rule := all.find? (·.name = s)

/-- The rule at a given place of the grammar. -/
def ofId? (i : Nat) : Option Rule := all[i]?

/-- Whether the rule starts with itself in one of its alternatives. -/
def isLeftRecursive : Rule → Bool
  | query | booleanExpression | operatorExpression => true
  | _ => false

end Rule

/-- The labels of parse tree nodes. -/
inductive Label where
  | singleStatement
  /-- A `query` whose alternative is undecided. -/
  | query
  /-- `query : sourceCommand` -/
  | singleCommandQuery
  /-- `query : query '|' processingCommand` -/
  | compositeQuery
  | sourceCommand
  | processingCommand
  | whereCommand
  /-- A `booleanExpression` whose alternative is undecided. -/
  | booleanExpression
  /-- `booleanExpression : NOT booleanExpression` -/
  | logicalNot
  /-- `booleanExpression : valueExpression` -/
  | booleanDefault
  /-- `booleanExpression : booleanExpression (AND | OR) booleanExpression` -/
  | logicalBinary
  /-- A `valueExpression` whose alternative is undecided. -/
  | valueExpression
  /-- `valueExpression : operatorExpression` -/
  | valueExpressionDefault
  /-- `valueExpression : operatorExpression comparisonOperator operatorExpression` -/
  | comparison
  /-- An `operatorExpression` whose alternative is undecided. -/
  | operatorExpression
  /-- `operatorExpression : primaryExpression` -/
  | operatorExpressionDefault
  /-- `operatorExpression : (MINUS | PLUS) operatorExpression` -/
  | arithmeticUnary
  /-- `operatorExpression : operatorExpression op operatorExpression` -/
  | arithmeticBinary
  /-- A `primaryExpression` whose alternative is undecided. -/
  | primaryExpression
  /-- `primaryExpression : constant` -/
  | constantDefault
  /-- `primaryExpression : qualifiedName` -/
  | dereference
  /-- `primaryExpression : '(' booleanExpression ')'` -/
  | parenthesizedExpression
  /-- `primaryExpression : identifier '(' (booleanExpression (',' booleanExpression)*)? ')'` -/
  | functionExpression
  | rowCommand
  | fields
  | field
  | fromCommand
  | evalCommand
  | statsCommand
  | sourceIdentifier
  | qualifiedName
  | qualifiedNames
  | identifier
  /-- A `constant` whose alternative is undecided. -/
  | constant
  /-- `constant : NULL` -/
  | nullLiteral
  /-- `constant : number` -/
  | numericLiteral
  /-- `constant : booleanValue` -/
  | booleanLiteral
  /-- `constant : string` -/
  | stringLiteral
  | limitCommand
  | sortCommand
  | orderExpression
  | projectCommand
  | projectClause
  | booleanValue
  /-- A `number` whose alternative is undecided. -/
  | number
  /-- `number : DECIMAL_LITERAL` -/
  | decimalLiteral
  /-- `number : INTEGER_LITERAL` -/
  | integerLiteral
  | string
  | comparisonOperator
  | explainCommand
  | subqueryExpression
deriving DecidableEq, Inhabited

namespace Label

/-- Every label. -/
def all : List Label :=
  [.singleStatement, .query, .singleCommandQuery, .compositeQuery, .sourceCommand,
    .processingCommand, .whereCommand, .booleanExpression, .logicalNot, .booleanDefault,
    .logicalBinary, .valueExpression, .valueExpressionDefault, .comparison, .operatorExpression,
    .operatorExpressionDefault, .arithmeticUnary, .arithmeticBinary, .primaryExpression,
    .constantDefault, .dereference, .parenthesizedExpression, .functionExpression, .rowCommand,
    .fields, .field, .fromCommand, .evalCommand, .statsCommand, .sourceIdentifier,
    .qualifiedName, .qualifiedNames, .identifier, .constant, .nullLiteral, .numericLiteral,
    .booleanLiteral, .stringLiteral, .limitCommand, .sortCommand, .orderExpression,
    .projectCommand, .projectClause, .booleanValue, .number, .decimalLiteral, .integerLiteral,
    .string, .comparisonOperator, .explainCommand, .subqueryExpression]

/-- The rule a label belongs to. -/
def rule : Label → Rule
  | singleStatement => .singleStatement
  | query | singleCommandQuery | compositeQuery => .query
  | sourceCommand => .sourceCommand
  | processingCommand => .processingCommand
  | whereCommand => .whereCommand
  | booleanExpression | logicalNot | booleanDefault | logicalBinary => .booleanExpression
  | valueExpression | valueExpressionDefault | comparison => .valueExpression
  | operatorExpression | operatorExpressionDefault | arithmeticUnary | arithmeticBinary =>
    .operatorExpression
  | primaryExpression | constantDefault | dereference | parenthesizedExpression
  | functionExpression => .primaryExpression
  | rowCommand => .rowCommand
  | fields => .fields
  | field => .field
  | fromCommand => .fromCommand
  | evalCommand => .evalCommand
  | statsCommand => .statsCommand
  | sourceIdentifier => .sourceIdentifier
  | qualifiedName => .qualifiedName
  | qualifiedNames => .qualifiedNames
  | identifier => .identifier
  | constant | nullLiteral | numericLiteral | booleanLiteral | stringLiteral => .constant
  | limitCommand => .limitCommand
  | sortCommand => .sortCommand
  | orderExpression => .orderExpression
  | projectCommand => .projectCommand
  | projectClause => .projectClause
  | booleanValue => .booleanValue
  | number | decimalLiteral | integerLiteral => .number
  | string => .string
  | comparisonOperator => .comparisonOperator
  | explainCommand => .explainCommand
  | subqueryExpression => .subqueryExpression

/-- Whether the label names an alternative, and not a bare rule. -/
def isAlternative : Label → Bool
  | singleCommandQuery | compositeQuery | logicalNot | booleanDefault | logicalBinary
  | valueExpressionDefault | comparison | operatorExpressionDefault | arithmeticUnary
  | arithmeticBinary | constantDefault | dereference | parenthesizedExpression
  | functionExpression | nullLiteral | numericLiteral | booleanLiteral | stringLiteral
  | decimalLiteral | integerLiteral => true
  | _ => false

/-- The label of the bare rule. -/
def ofRule : Rule → Label
  | .singleStatement => singleStatement
  | .query => query
  | .sourceCommand => sourceCommand
  | .processingCommand => processingCommand
  | .whereCommand => whereCommand
  | .booleanExpression => booleanExpression
  | .valueExpression => valueExpression
  | .operatorExpression => operatorExpression
  | .primaryExpression => primaryExpression
  | .rowCommand => rowCommand
  | .fields => fields
  | .field => field
  | .fromCommand => fromCommand
  | .evalCommand => evalCommand
  | .statsCommand => statsCommand
  | .sourceIdentifier => sourceIdentifier
  | .qualifiedName => qualifiedName
  | .qualifiedNames => qualifiedNames
  | .identifier => identifier
  | .constant => constant
  | .limitCommand => limitCommand
  | .sortCommand => sortCommand
  | .orderExpression => orderExpression
  | .projectCommand => projectCommand
  | .projectClause => projectClause
  | .booleanValue => booleanValue
  | .number => number
  | .string => string
  | .comparisonOperator => comparisonOperator
  | .explainCommand => explainCommand
  | .subqueryExpression => subqueryExpression

@[simp]
theorem rule_ofRule (r : Rule) : (ofRule r).rule = r := by
  cases r <;> rfl

theorem isAlternative_iff (l : Label) : l.isAlternative = true ↔ l ≠ ofRule l.rule := by
  cases l <;> decide

theorem mem_all (l : Label) : l ∈ all := by
  cases l <;> decide

/-- The name of a label: the name of its rule, or the name of the alternative. -/
def name : Label → String
  | singleCommandQuery => "singleCommandQuery"
  | compositeQuery => "compositeQuery"
  | logicalNot => "logicalNot"
  | booleanDefault => "booleanDefault"
  | logicalBinary => "logicalBinary"
  | valueExpressionDefault => "valueExpressionDefault"
  | comparison => "comparison"
  | operatorExpressionDefault => "operatorExpressionDefault"
  | arithmeticUnary => "arithmeticUnary"
  | arithmeticBinary => "arithmeticBinary"
  | constantDefault => "constantDefault"
  | dereference => "dereference"
  | parenthesizedExpression => "parenthesizedExpression"
  | functionExpression => "functionExpression"
  | nullLiteral => "nullLiteral"
  | numericLiteral => "numericLiteral"
  | booleanLiteral => "booleanLiteral"
  | stringLiteral => "stringLiteral"
  | decimalLiteral => "decimalLiteral"
  | integerLiteral => "integerLiteral"
  | l => l.rule.name

/-- The label with a given name. -/
def ofName? (s : String) : Option Label := all.find? (·.name = s)

end Label

end PipeQuery

import PipeQuery.Grammar.Rule
import PipeQuery.Token.KindSet

/-!
# First and follow sets

For each rule, the kinds of tokens that can start it and the kinds that can stand right behind
it. The parser picks alternatives by the first sets and looks for a place to go on after an error
by the follow sets.

## Main definitions

* `Rule.first`, `Rule.follow`: the two sets of a rule
* `stageEnd`: the kinds that end a stage of a pipeline
* `comparisonOperators`, `arithmeticOperators`: the operators of two kinds of expressions
-/

namespace PipeQuery

open Token

/-- The kinds that end a stage of a pipeline. -/
def stageEnd : KindSet := .ofList [.endOfInput, .rightBracket, .pipe]

/-- The comparison operators. -/
def comparisonOperators : KindSet :=
  .ofList [.equal, .notEqual, .less, .lessEqual, .greater, .greaterEqual]

/-- The arithmetic operators. -/
def arithmeticOperators : KindSet := .ofList [.plus, .minus, .star, .slash, .percent]

namespace Rule

/-! ## What can start a rule -/

/-- The kinds that start a name. -/
def nameFirst : KindSet := .ofList [.name, .quotedName]

/-- The kinds that start a source name. -/
def sourceNameFirst : KindSet := .ofList [.sourceName, .quotedSourceName]

/-- The kinds that start a number. -/
def numberFirst : KindSet := .ofList [.integer, .decimal]

/-- The kinds that start a truth value. -/
def truthFirst : KindSet := .ofList [.trueWord, .falseWord]

/-- The kinds that start a constant. -/
def constantFirst : KindSet := ((numberFirst ∪ truthFirst).insert .nullWord).insert .string

/-- The kinds that start a primary expression. -/
def primaryFirst : KindSet := (constantFirst ∪ nameFirst).insert .leftParen

/-- The kinds that start an arithmetic expression. -/
def operatorFirst : KindSet := (primaryFirst.insert .plus).insert .minus

/-- The kinds that start a boolean expression. -/
def booleanFirst : KindSet := operatorFirst.insert .notWord

/-- The kinds that start a source command. -/
def sourceCommandFirst : KindSet := .ofList [.explainCmd, .fromCmd, .rowCmd]

/-- The kinds that start a processing command. -/
def processingCommandFirst : KindSet :=
  .ofList [.evalCmd, .limitCmd, .projectCmd, .sortCmd, .statsCmd, .whereCmd]

/-- The kinds of tokens that can start a rule. -/
def first : Rule → KindSet
  | singleStatement | query | sourceCommand => sourceCommandFirst
  | processingCommand => processingCommandFirst
  | whereCommand => .ofList [.whereCmd]
  | booleanExpression => booleanFirst
  | valueExpression | operatorExpression => operatorFirst
  | primaryExpression => primaryFirst
  | rowCommand => .ofList [.rowCmd]
  | fields | field => booleanFirst
  | fromCommand => .ofList [.fromCmd]
  | evalCommand => .ofList [.evalCmd]
  | statsCommand => .ofList [.statsCmd]
  | sourceIdentifier => sourceNameFirst
  | qualifiedName | qualifiedNames | identifier => nameFirst
  | constant => constantFirst
  | limitCommand => .ofList [.limitCmd]
  | sortCommand => .ofList [.sortCmd]
  | orderExpression => booleanFirst
  | projectCommand => .ofList [.projectCmd]
  | projectClause => sourceNameFirst
  | booleanValue => truthFirst
  | number => numberFirst
  | string => .ofList [.string]
  | comparisonOperator => comparisonOperators
  | explainCommand => .ofList [.explainCmd]
  | subqueryExpression => .ofList [.leftBracket]

/-! ## What can follow a rule -/

/-- The kinds that follow a list of fields. -/
def fieldsFollow : KindSet := stageEnd.insert .byWord

/-- The kinds that follow a field. -/
def fieldFollow : KindSet := fieldsFollow.insert .comma

/-- The kinds that follow a boolean expression. -/
def booleanFollow : KindSet :=
  fieldFollow ∪ .ofList [.rightParen, .ascWord, .descWord, .nullsWord, .andWord, .orWord]

/-- The kinds that follow an arithmetic expression. -/
def operatorFollow : KindSet := (booleanFollow ∪ comparisonOperators) ∪ arithmeticOperators

/-- The kinds that follow a qualified name. -/
def qualifiedNameFollow : KindSet := (operatorFollow.insert .assign).insert .comma

/-- The kinds that follow a single name. -/
def nameFollow : KindSet := (qualifiedNameFollow.insert .dot).insert .leftParen

/-- The kinds that follow a source name. -/
def sourceNameFollow : KindSet := (stageEnd.insert .comma).insert .assign

/-- The kinds that follow an item of a list that ends with its stage. -/
def itemFollow : KindSet := stageEnd.insert .comma

/-- The kinds of tokens that can stand right behind a rule. -/
def follow : Rule → KindSet
  | singleStatement => ∅
  | query | sourceCommand | processingCommand | whereCommand | rowCommand | fromCommand
  | evalCommand | statsCommand | qualifiedNames | limitCommand | sortCommand | projectCommand
  | explainCommand | subqueryExpression => stageEnd
  | booleanExpression | valueExpression => booleanFollow
  | operatorExpression | primaryExpression | constant | booleanValue | number | string =>
    operatorFollow
  | fields => fieldsFollow
  | field => fieldFollow
  | sourceIdentifier => sourceNameFollow
  | qualifiedName => qualifiedNameFollow
  | identifier => nameFollow
  | orderExpression | projectClause => itemFollow
  | comparisonOperator => operatorFirst

end Rule

end PipeQuery

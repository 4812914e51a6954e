import PipeQuery.Grammar.Precedence
import PipeQuery.Parser.Prediction
import PipeQuery.Parser.Recovery

/-!
# The rules of the parser

Each rule of the grammar has a body, which matches tokens and calls other rules. The bodies are
written over a parser `sub` for the rules they call, so that the recursion is in one place: the
parser with depth `d + 1` runs a body whose calls are made with depth `d`, and the parser with no
depth left ends the parse.

## Main definitions

* `Parser.more`, `Parser.list`: lists with separators
* `Parser.operators`: the rounds of precedence climbing
* `Parser.stages`: the stages of a pipeline
* `Parser.body`: the body of each rule
* `Parser.parseRule`: the parser of a rule, with a number of rules that may still be opened
-/

namespace PipeQuery.Parser

open Token (Kind KindSet)

variable (strategy : Strategy) (sub : Rule → Nat → Run Unit)

/-! ## Repetition -/

/-- Further items, each behind a separator, at most `n`. -/
def more (separator : Kind) (item : Run Unit) : Nat → Run Unit
  | 0 => pure ()
  | n + 1 => do
    if (← ahead 1) = separator then
      consume
      item
      more separator item n

/-- One item, and further ones behind separators. -/
def list (separator : Kind) (item : Run Unit) : Run Unit := do
  item
  more separator item (← remaining)

/-- Rounds of precedence climbing, at most `n`. While the next operator's precedence is at least
the floor, the expression so far is wrapped and the right operand parsed one level above. -/
def operators (precedence : Kind → Option Nat) (wrapper : Label) (operand : Rule) (floor : Nat) :
    Nat → Run Unit
  | 0 => pure ()
  | n + 1 => do
    match precedence (← ahead 1) with
    | none => pure ()
    | some p =>
      if p < floor then pure ()
      else
        -- What has been parsed becomes the left operand.
        wrap wrapper
        consume
        sub operand (p + 1)
        operators precedence wrapper operand floor n

/-- Further stages of a pipeline, each behind a pipe, at most `n`. -/
def stages (floor : Nat) : Nat → Run Unit
  | 0 => pure ()
  | n + 1 => do
    let k ← ahead 1
    if k = .pipe && floor ≤ Precedence.pipe then
      wrap .compositeQuery
      consume
      sub .processingCommand 0
      stages floor n
    else if Rule.query.follow.contains k then pure ()
    else
      -- Neither a pipe nor an end: the stage before went on too long.
      syncStage strategy
      stages floor n

/-! ## Commands -/

/-- `query EOF` -/
def singleStatement : Run Unit := do
  sub .query 0
  expect strategy .endOfInput

/-- A source command and the stages behind it. -/
def query (floor : Nat) : Run Unit := do
  relabel .singleCommandQuery
  sub .sourceCommand 0
  stages strategy sub floor (← remaining)

/-- The command that starts a pipeline. -/
def sourceCommand : Run Unit := do
  match ← ahead 1 with
  | .explainCmd => sub .explainCommand 0
  | .fromCmd => sub .fromCommand 0
  | .rowCmd => sub .rowCommand 0
  | _ => fail strategy .noViable Rule.sourceCommand.first

/-- The command of a later stage. -/
def processingCommand : Run Unit := do
  match ← ahead 1 with
  | .evalCmd => sub .evalCommand 0
  | .limitCmd => sub .limitCommand 0
  | .projectCmd => sub .projectCommand 0
  | .sortCmd => sub .sortCommand 0
  | .statsCmd => sub .statsCommand 0
  | .whereCmd => sub .whereCommand 0
  | _ => fail strategy .noViable Rule.processingCommand.first

/-- A command word and one rule behind it. -/
def commandWith (word : Kind) (argument : Rule) : Run Unit := do
  expect strategy word
  sub argument 0

/-- A command word and a list of items behind it. -/
def commandWithList (word : Kind) (item : Rule) : Run Unit := do
  expect strategy word
  list .comma (sub item 0)

/-- `STATS fields (BY qualifiedNames)?` -/
def statsCommand : Run Unit := do
  expect strategy .statsCmd
  sub .fields 0
  if (← ahead 1) = .byWord then
    consume
    sub .qualifiedNames 0

/-- `LIMIT INTEGER_LITERAL` -/
def limitCommand : Run Unit := do
  expect strategy .limitCmd
  expect strategy .integer

/-- `booleanExpression (ASC | DESC)? (NULLS (FIRST | LAST))?` -/
def orderExpression : Run Unit := do
  sub .booleanExpression 0
  let k ← ahead 1
  -- Without a word the order stays open; it is no error.
  if k = .ascWord || k = .descWord then consume
  if (← ahead 1) = .nullsWord then
    consume
    expectOneOf strategy (.ofList [.firstWord, .lastWord])

/-- `sourceIdentifier | sourceIdentifier '=' sourceIdentifier` -/
def projectClause : Run Unit := do
  match clause? (← get).stream with
  | some .keep => sub .sourceIdentifier 0
  | some .rename =>
    sub .sourceIdentifier 0
    expect strategy .assign
    sub .sourceIdentifier 0
  | none => fail strategy .noViable Rule.projectClause.first

/-- `'[' query ']'` -/
def subqueryExpression : Run Unit := do
  expect strategy .leftBracket
  sub .query 0
  expect strategy .rightBracket

/-- `booleanExpression | qualifiedName '=' booleanExpression` -/
def field : Run Unit := do
  match field? (← get).stream with
  | some .expression => sub .booleanExpression 0
  | some .assignment =>
    sub .qualifiedName 0
    expect strategy .assign
    sub .booleanExpression 0
  | none => fail strategy .noViable Rule.field.first

/-! ## Expressions -/

/-- Logical expressions over a floor. -/
def booleanExpression (floor : Nat) : Run Unit := do
  checkFloor strategy floor Precedence.booleanMax
  let k ← ahead 1
  if k = .notWord then
    relabel .logicalNot
    consume
    sub .booleanExpression Precedence.notOperand
  else if Rule.valueExpression.first.contains k then
    relabel .booleanDefault
    sub .valueExpression 0
  else fail strategy .noViable Rule.booleanExpression.first
  operators sub Kind.logicalPrecedence .logicalBinary .booleanExpression floor (← remaining)

/-- `operatorExpression (comparisonOperator operatorExpression)?` -/
def valueExpression : Run Unit := do
  sub .operatorExpression 0
  if comparisonOperators.contains (← ahead 1) then
    relabel .comparison
    sub .comparisonOperator 0
    sub .operatorExpression 0
  else relabel .valueExpressionDefault

/-- Arithmetic expressions over a floor. -/
def operatorExpression (floor : Nat) : Run Unit := do
  checkFloor strategy floor Precedence.operatorMax
  let k ← ahead 1
  if k = .plus || k = .minus then
    relabel .arithmeticUnary
    consume
    sub .operatorExpression Precedence.unaryOperand
  else if Rule.primaryExpression.first.contains k then
    relabel .operatorExpressionDefault
    sub .primaryExpression 0
  else fail strategy .noViable Rule.operatorExpression.first
  operators sub Kind.arithmeticPrecedence .arithmeticBinary .operatorExpression floor (← remaining)

/-- The arguments of a call and its closing parenthesis. -/
def arguments : Run Unit := do
  if (← ahead 1) ≠ .rightParen then list .comma (sub .booleanExpression 0)
  expect strategy .rightParen

/-- Constants, names, expressions in parentheses and function calls. -/
def primaryExpression : Run Unit := do
  match primary? (← get).stream with
  | some .constant =>
    relabel .constantDefault
    sub .constant 0
  | some .name =>
    relabel .dereference
    sub .qualifiedName 0
  | some .parenthesized =>
    relabel .parenthesizedExpression
    consume
    sub .booleanExpression 0
    expect strategy .rightParen
  | some .call =>
    relabel .functionExpression
    sub .identifier 0
    expect strategy .leftParen
    arguments strategy sub
  | none => fail strategy .noViable Rule.primaryExpression.first

/-! ## Names and literals -/

/-- A literal value. -/
def constant : Run Unit := do
  match ← ahead 1 with
  | .nullWord =>
    relabel .nullLiteral
    consume
  | .integer | .decimal =>
    relabel .numericLiteral
    sub .number 0
  | .trueWord | .falseWord =>
    relabel .booleanLiteral
    sub .booleanValue 0
  | .string =>
    relabel .stringLiteral
    sub .string 0
  | _ => fail strategy .noViable Rule.constant.first

/-- A number of one of two kinds. -/
def number : Run Unit := do
  match ← ahead 1 with
  | .decimal =>
    relabel .decimalLiteral
    consume
  | .integer =>
    relabel .integerLiteral
    consume
  | _ => fail strategy .noViable Rule.number.first

/-! ## All rules -/

/-- The body of a rule. Only three rules heed the floor. -/
def body : Rule → Nat → Run Unit
  | .singleStatement, _ => singleStatement strategy sub
  | .query, floor => query strategy sub floor
  | .sourceCommand, _ => sourceCommand strategy sub
  | .processingCommand, _ => processingCommand strategy sub
  | .whereCommand, _ => commandWith strategy sub .whereCmd .booleanExpression
  | .booleanExpression, floor => booleanExpression strategy sub floor
  | .valueExpression, _ => valueExpression sub
  | .operatorExpression, floor => operatorExpression strategy sub floor
  | .primaryExpression, _ => primaryExpression strategy sub
  | .rowCommand, _ => commandWith strategy sub .rowCmd .fields
  | .fields, _ => list .comma (sub .field 0)
  | .field, _ => field strategy sub
  | .fromCommand, _ => commandWithList strategy sub .fromCmd .sourceIdentifier
  | .evalCommand, _ => commandWith strategy sub .evalCmd .fields
  | .statsCommand, _ => statsCommand strategy sub
  | .sourceIdentifier, _ => expectOneOf strategy Rule.sourceIdentifier.first
  | .qualifiedName, _ => list .dot (sub .identifier 0)
  | .qualifiedNames, _ => list .comma (sub .qualifiedName 0)
  | .identifier, _ => expectOneOf strategy Rule.identifier.first
  | .constant, _ => constant strategy sub
  | .limitCommand, _ => limitCommand strategy
  | .sortCommand, _ => commandWithList strategy sub .sortCmd .orderExpression
  | .orderExpression, _ => orderExpression strategy sub
  | .projectCommand, _ => commandWithList strategy sub .projectCmd .projectClause
  | .projectClause, _ => projectClause strategy sub
  | .booleanValue, _ => expectOneOf strategy Rule.booleanValue.first
  | .number, _ => number strategy
  | .string, _ => expect strategy .string
  | .comparisonOperator, _ => expectOneOf strategy comparisonOperators
  | .explainCommand, _ => commandWith strategy sub .explainCmd .subqueryExpression
  | .subqueryExpression, _ => subqueryExpression strategy sub

/-- The parser of a rule over a floor, where `depth` more rules may be opened. A rule is opened
before the depth is looked at, so that its node stands in the tree when the parse ends there. -/
def parseRule (options : Options) : Nat → Rule → Nat → Run Unit
  | 0, rule, floor => within (.ofRule rule) floor (failTooDeep options.maxDepth)
  | depth + 1, rule, floor =>
    within (.ofRule rule) floor (body options.strategy (parseRule options depth) rule floor)

end PipeQuery.Parser

import PipeQuery.Number.Literal
import PipeQuery.View.Name
import PipeQuery.View.Operator

/-!
# Expressions in a tree

What a node of an expression says: which alternative of its rule it is, its operator, and the
nodes of its operands. An operand is looked at in turn when it is needed. A node that an error
left without a part it needs says nothing.

## Main definitions

* `BooleanExpression`, `ValueExpression`, `OperatorExpression`, `PrimaryExpression`, `Constant`:
  what the nodes of these rules say
* `ParseTree.booleanExpression?`, ..., `ParseTree.constant?`: what is said by a node
-/

namespace PipeQuery

/-- What a `booleanExpression` says. -/
inductive BooleanExpression where
  | not (operand : NodeId)
  | value (operand : NodeId)
  | binary (left : NodeId) (operator : LogicalOperator) (right : NodeId)
deriving DecidableEq

/-- What a `valueExpression` says. -/
inductive ValueExpression where
  | plain (operand : NodeId)
  | comparison (left : NodeId) (operator : ComparisonOperator) (right : NodeId)
deriving DecidableEq

/-- What an `operatorExpression` says. -/
inductive OperatorExpression where
  | primary (operand : NodeId)
  | unary (operator : ArithmeticOperator) (operand : NodeId)
  | binary (left : NodeId) (operator : ArithmeticOperator) (right : NodeId)
deriving DecidableEq

/-- What a `constant` says. -/
inductive Constant where
  | null
  | number (literal : NumberLiteral)
  | truth (value : Bool)
  | text (value : String)
deriving DecidableEq

/-- What a `primaryExpression` says. -/
inductive PrimaryExpression where
  | constant (value : Constant)
  | name (name : QualifiedName)
  | parenthesized (inner : NodeId)
  | call (function : String) (arguments : List NodeId)
deriving DecidableEq

namespace ParseTree

variable (t : ParseTree)

/-- What a `booleanExpression` says. -/
def booleanExpression? (id : NodeId) : Option BooleanExpression :=
  match t.label id with
  | .logicalNot => return .not (← t.childNode? id 0)
  | .booleanDefault => return .value (← t.childNode? id 0)
  | .logicalBinary =>
    return .binary (← t.childNode? id 0) (← t.operator? LogicalOperator.ofKind? id)
      (← t.childNode? id 1)
  | _ => none

/-- The operator of a comparison, which is a node of its own. -/
def comparisonOperator? (id : NodeId) : Option ComparisonOperator := do
  let op ← (t.childNodes id).find? fun c => t.label c = .comparisonOperator
  t.operator? ComparisonOperator.ofKind? op

/-- What a `valueExpression` says. -/
def valueExpression? (id : NodeId) : Option ValueExpression :=
  match t.label id with
  | .valueExpressionDefault => return .plain (← t.childNode? id 0)
  | .comparison =>
    -- The operator is the second of the three nodes.
    return .comparison (← t.childNode? id 0) (← t.comparisonOperator? id) (← t.childNode? id 2)
  | _ => none

/-- What an `operatorExpression` says. -/
def operatorExpression? (id : NodeId) : Option OperatorExpression :=
  match t.label id with
  | .operatorExpressionDefault => return .primary (← t.childNode? id 0)
  | .arithmeticUnary =>
    return .unary (← t.operator? ArithmeticOperator.ofKind? id) (← t.childNode? id 0)
  | .arithmeticBinary =>
    return .binary (← t.childNode? id 0) (← t.operator? ArithmeticOperator.ofKind? id)
      (← t.childNode? id 1)
  | _ => none

/-- The form of the number that a node is labelled as. -/
def numberForm? (id : NodeId) : Option NumberLiteral.Form :=
  match t.label id with
  | .integerLiteral => some .integer
  | .decimalLiteral => some .decimal
  | _ => none

/-- What a `constant` says. -/
def constant? (id : NodeId) : Option Constant :=
  match t.label id with
  | .nullLiteral => some .null
  | .numericLiteral => do
    let number ← t.childNode? id 0
    return .number ⟨← t.numberForm? number, (← t.firstToken? number).text⟩
  | .booleanLiteral => do
    let token ← t.firstToken? (← t.childNode? id 0)
    return .truth (token.kind == .trueWord)
  | .stringLiteral => do
    let token ← t.firstToken? (← t.childNode? id 0)
    return .text (unquoteString token.text)
  | _ => none

/-- What a `primaryExpression` says. -/
def primaryExpression? (id : NodeId) : Option PrimaryExpression :=
  match t.label id with
  | .constantDefault => return .constant (← t.constant? (← t.childNode? id 0))
  | .dereference => return .name (← t.qualifiedName? (← t.childNode? id 0))
  | .parenthesizedExpression => return .parenthesized (← t.childNode? id 0)
  | .functionExpression => do
    let function ← t.nameAt? (← t.childNode? id 0)
    return .call function ((t.childNodes id).drop 1)
  | _ => none

end ParseTree

end PipeQuery

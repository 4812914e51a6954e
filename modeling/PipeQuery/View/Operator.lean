import PipeQuery.Tree.Basic

/-!
# Operators in a tree

The operators of expressions and the words behind a sort key, as they are read off tokens.

## Main definitions

* `LogicalOperator`, `ComparisonOperator`, `ArithmeticOperator`: operators, each with the kinds
  of token it is written as
* `SortOrder`, `NullsOrder`: the words behind a sort key
* `ParseTree.operator?`: the operator among the tokens of a node
-/

namespace PipeQuery

open Token (Kind)

/-- An operator between truth values. -/
inductive LogicalOperator where
  | and
  | or
deriving DecidableEq

/-- The logical operator a kind of token is written for. -/
def LogicalOperator.ofKind? : Kind → Option LogicalOperator
  | .andWord => some and
  | .orWord => some or
  | _ => none

/-- An operator that compares two values. -/
inductive ComparisonOperator where
  | equal
  | notEqual
  | less
  | lessEqual
  | greater
  | greaterEqual
deriving DecidableEq

/-- The comparison a kind of token is written for. -/
def ComparisonOperator.ofKind? : Kind → Option ComparisonOperator
  | .equal => some equal
  | .notEqual => some notEqual
  | .less => some less
  | .lessEqual => some lessEqual
  | .greater => some greater
  | .greaterEqual => some greaterEqual
  | _ => none

/-- An operator on numbers. -/
inductive ArithmeticOperator where
  | plus
  | minus
  | times
  | divide
  | modulo
deriving DecidableEq

/-- The arithmetic operator a kind of token is written for. -/
def ArithmeticOperator.ofKind? : Kind → Option ArithmeticOperator
  | .plus => some plus
  | .minus => some minus
  | .star => some times
  | .slash => some divide
  | .percent => some modulo
  | _ => none

/-- The direction of a sort key. -/
inductive SortOrder where
  | ascending
  | descending
deriving DecidableEq

/-- The direction a kind of token is written for. -/
def SortOrder.ofKind? : Kind → Option SortOrder
  | .ascWord => some ascending
  | .descWord => some descending
  | _ => none

/-- Where a sort key puts missing values. -/
inductive NullsOrder where
  | first
  | last
deriving DecidableEq

/-- The place of missing values a kind of token is written for. -/
def NullsOrder.ofKind? : Kind → Option NullsOrder
  | .firstWord => some first
  | .lastWord => some last
  | _ => none

/-- The first matched token of a node that is written for an operator. -/
def ParseTree.operator? {α : Type} (t : ParseTree) (ofKind? : Kind → Option α) (id : NodeId) :
    Option α :=
  (t.directTokens id).findSome? fun token => ofKind? token.kind

end PipeQuery

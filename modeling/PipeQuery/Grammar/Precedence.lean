import PipeQuery.Token.Kind

/-!
# Operator precedences

A binary operator continues the expression before it when its precedence is at least the floor in
force. Its right operand is parsed with a floor one above the precedence, so that operators of
equal precedence bind to the left.

## Main definitions

* `Token.Kind.logicalPrecedence`, `Token.Kind.arithmeticPrecedence`: the precedences of binary
  operators
* `Precedence.notOperand`, `Precedence.unaryOperand`: the floors of the operands of prefix
  operators
* `Precedence.booleanMax`, `Precedence.operatorMax`: the highest floors the two expression rules
  accept
-/

namespace PipeQuery.Precedence

/-- The precedence of `or`. -/
def disjunction : Nat := 1

/-- The precedence of `and`. -/
def conjunction : Nat := 2

/-- The floor of the operand of `not`. -/
def notOperand : Nat := 4

/-- The highest floor of a boolean expression. -/
def booleanMax : Nat := 4

/-- The precedence of binary `+` and `-`. -/
def additive : Nat := 1

/-- The precedence of `*`, `/` and `%`. -/
def multiplicative : Nat := 2

/-- The floor of the operand of a sign. -/
def unaryOperand : Nat := 3

/-- The highest floor of an arithmetic expression. -/
def operatorMax : Nat := 3

/-- The precedence of `|` in a query. -/
def pipe : Nat := 1

end PipeQuery.Precedence

namespace PipeQuery.Token.Kind

/-- The precedence of a logical operator. -/
def logicalPrecedence : Kind → Option Nat
  | andWord => some Precedence.conjunction
  | orWord => some Precedence.disjunction
  | _ => none

/-- The precedence of an arithmetic operator. -/
def arithmeticPrecedence : Kind → Option Nat
  | star | slash | percent => some Precedence.multiplicative
  | plus | minus => some Precedence.additive
  | _ => none

end PipeQuery.Token.Kind

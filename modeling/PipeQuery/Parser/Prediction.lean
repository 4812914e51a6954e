import PipeQuery.Grammar.FirstFollow
import PipeQuery.Token.Stream

/-!
# Looking ahead

Three rules choose their alternative by more than the current token: a field that may be an
assignment, a primary expression that may be a call, and a clause that may be a rename.

## Main definitions

* `Parser.field?`, `Parser.primary?`, `Parser.clause?`: the alternatives that the next tokens
  announce, if any
-/

namespace PipeQuery.Parser

open Token (Kind)

/-- The alternatives of a field. -/
inductive FieldForm where
  | expression
  | assignment
deriving DecidableEq

/-- The alternatives of a primary expression. -/
inductive PrimaryForm where
  | constant
  | name
  | parenthesized
  | call
deriving DecidableEq

/-- The alternatives of a clause of `project`. -/
inductive ClauseForm where
  | keep
  | rename
deriving DecidableEq

/-- Whether a name starts with this kind. -/
def isName (k : Kind) : Bool := Rule.identifier.first.contains k

/-- The place behind a qualified name whose first part ends before place `k`; at most `n` more
parts are looked for. -/
def nameEnd (s : TokenStream) : Nat → Nat → Nat
  | 0, k => k
  | n + 1, k =>
    if s.kindAt k = .dot && isName (s.kindAt (k + 1)) then nameEnd s n (k + 2) else k

/-- The alternative of a field: an assignment if a qualified name and `=` come next. -/
def field? (s : TokenStream) : Option FieldForm :=
  if !Rule.field.first.contains (s.kindAt 1) then none
  -- A name can be an expression too; only the `=` behind it tells.
  else if isName (s.kindAt 1) && s.kindAt (nameEnd s s.remaining 2) = .assign then
    some .assignment
  else some .expression

/-- The alternative of a primary expression: a name is called if a parenthesis follows it. -/
def primary? (s : TokenStream) : Option PrimaryForm :=
  if Rule.constant.first.contains (s.kindAt 1) then some .constant
  else if s.kindAt 1 = .leftParen then some .parenthesized
  else if isName (s.kindAt 1) then
    if s.kindAt 2 = .leftParen then some .call else some .name
  else none

/-- The alternative of a clause of `project`: a rename if `=` follows the name. -/
def clause? (s : TokenStream) : Option ClauseForm :=
  if !Rule.projectClause.first.contains (s.kindAt 1) then none
  else if s.kindAt 2 = .assign then some .rename
  else some .keep

end PipeQuery.Parser

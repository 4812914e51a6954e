import PipeQuery.Parser.Rules
import PipeQuery.Proofs.Grammar.Stratified

/-!
# What the rules do

The body of a rule, once the kinds of the next tokens are known, is a row of simple steps: it
labels its node, matches tokens and calls other rules. This row is written down as a script. A
script ends, or it goes on with a phase of the rule, which looks at the next tokens again; the
loops of the parser are phases that come back to themselves.

## Main definitions

* `Move`, `Script`: the steps of a rule
* `Series`, `Phase`: what a rule repeats, and where it looks at the next tokens again
* `unchecked`, `uncheckedOperator`: what expressions do behind the check of their floor
* `opening`: the script with which a rule starts
* `Phase.script`: the script with which a phase goes on
-/

namespace PipeQuery.Parser

open Token (Kind KindSet)

/-- The kind of the next token, of those that are still to come before the end of the input. -/
def next (w : List Kind) : Kind := w.headD .endOfInput

@[simp]
theorem next_nil : next [] = .endOfInput := rfl

@[simp]
theorem next_cons (k : Kind) (w : List Kind) : next (k :: w) = k := rfl

theorem exists_cons_of_next {k : Kind} {w : List Kind} (h : next w = k) (hk : k ≠ .endOfInput) :
    ∃ v, w = k :: v := by
  cases w with
  | nil => exact absurd h.symm hk
  | cons k' v => exact ⟨v, congrArg (· :: v) h⟩

/-- The lists with separators. -/
inductive Series where
  | sources
  | orders
  | clauses
  | fields
  | names
  | parts
  | arguments
deriving DecidableEq

namespace Series

/-- The separator between items. -/
def separator : Series → Kind
  | parts => .dot
  | _ => .comma

/-- The rule of the items. -/
def item : Series → Rule
  | sources => .sourceIdentifier
  | orders => .orderExpression
  | clauses => .projectClause
  | fields => .field
  | names => .qualifiedName
  | parts => .identifier
  | arguments => .booleanExpression

theorem item_ne (s : Series) : s.item ≠ .singleStatement := by
  cases s <;> decide

end Series

/-- Where a rule looks at the next tokens again. -/
inductive Phase where
  /-- Behind an item of a list. -/
  | more (s : Series)
  /-- Behind an operand of an expression over a floor. -/
  | operators (c : Climb) (floor : Nat)
  /-- Behind a stage of a pipeline. -/
  | stages (floor : Nat)
  /-- Behind the first operand of a comparison. -/
  | comparison
  /-- Behind the fields of `stats`. -/
  | grouping
  /-- Behind the expression of an order. -/
  | direction
  /-- Behind the direction of an order. -/
  | nulls
  /-- Behind the opening parenthesis of a call. -/
  | arguments
deriving DecidableEq

/-- A step of a rule at its own node. -/
inductive Move where
  /-- Give the node its alternative. -/
  | relabel (label : Label)
  /-- Wrap the node in a new one. -/
  | wrap (label : Label)
  /-- Match a token of a kind in a set. -/
  | take (set : KindSet)
  /-- Check the floor against the highest one. -/
  | check (floor highest : Nat)
  /-- Report that no alternative starts with the next token, and leave the rule. -/
  | fail (expected : KindSet)
  /-- Report that a stage is followed by neither a pipe nor an end, and look for such a place. -/
  | sync
deriving DecidableEq

/-- What a rule does, up to the next place where it looks at the tokens to come. -/
inductive Script where
  | done
  | step (m : Move) (rest : Script)
  | call (r : Rule) (floor : Nat) (rest : Script)
  | go (p : Phase)
deriving DecidableEq

namespace Script

/-- Match a token of one kind. -/
def token (k : Kind) (rest : Script) : Script := step (.take (.ofList [k])) rest

/-- Label the node. -/
def label (l : Label) (rest : Script) : Script := step (.relabel l) rest

/-- Leave the rule with an error. -/
def leave (expected : KindSet) : Script := step (.fail expected) done

/-- A single call. -/
def only (r : Rule) : Script := call r 0 done

end Script

open Script

/-! ## Looking ahead -/

/-- What stands behind a qualified name whose first part has been read. -/
def nameTail : List Kind → List Kind
  | .dot :: k :: w => if isName k then nameTail w else .dot :: k :: w
  | w => w

/-- The alternative of a field that the next tokens announce. -/
def fieldForm? (w : List Kind) : Option FieldForm :=
  if !Rule.field.first.contains (next w) then none
  else if isName (next w) && next (nameTail w.tail) = .assign then some .assignment
  else some .expression

/-- The alternative of a primary expression that the next tokens announce. -/
def primaryForm? (w : List Kind) : Option PrimaryForm :=
  if Rule.constant.first.contains (next w) then some .constant
  else if next w = .leftParen then some .parenthesized
  else if isName (next w) then if next w.tail = .leftParen then some .call else some .name
  else none

/-- The alternative of a clause of `project` that the next tokens announce. -/
def clauseForm? (w : List Kind) : Option ClauseForm :=
  if !Rule.projectClause.first.contains (next w) then none
  else if next w.tail = .assign then some .rename
  else some .keep

/-! ## Phases -/

/-- What stands behind the items of a list: the arguments of a call end with a parenthesis. -/
def Series.ending : Series → Script
  | arguments => token .rightParen done
  | _ => done

/-- The script with which a phase goes on. -/
def Phase.script (w : List Kind) : Phase → Script
  | more s => if next w = s.separator then token s.separator (call s.item 0 (go (more s))) else s.ending
  | operators c floor =>
    match c.precedence (next w) with
    | none => done
    | some p =>
      if p < floor then done
      else step (.wrap c.wrapper) (token (next w) (call c.rule (p + 1) (go (operators c floor))))
  | stages floor =>
    if next w = .pipe && floor ≤ Precedence.pipe then
      step (.wrap .compositeQuery) (token .pipe (call .processingCommand 0 (go (stages floor))))
    else if Rule.query.follow.contains (next w) then done
    else step .sync (go (stages floor))
  | comparison =>
    if comparisonOperators.contains (next w) then
      label .comparison (call .comparisonOperator 0 (only .operatorExpression))
    else label .valueExpressionDefault done
  | grouping => if next w = .byWord then token .byWord (only .qualifiedNames) else done
  | direction =>
    if next w = .ascWord || next w = .descWord then token (next w) (go nulls) else go nulls
  | nulls =>
    if next w = .nullsWord then
      token .nullsWord (step (.take (.ofList [.firstWord, .lastWord])) done)
    else done
  | arguments =>
    if next w ≠ .rightParen then call .booleanExpression 0 (go (more .arguments))
    else token .rightParen done

/-! ## Rules -/

/-- The script of a rule whose first token announces one of several rules. -/
def choice (first : Kind → Option Rule) (expected : KindSet) (w : List Kind) : Script :=
  match first (next w) with
  | some r => only r
  | none => leave expected

/-- The source command that a command word starts. -/
def sourceCommandOf : Kind → Option Rule
  | .explainCmd => some .explainCommand
  | .fromCmd => some .fromCommand
  | .rowCmd => some .rowCommand
  | _ => none

/-- The processing command that a command word starts. -/
def processingCommandOf : Kind → Option Rule
  | .evalCmd => some .evalCommand
  | .limitCmd => some .limitCommand
  | .projectCmd => some .projectCommand
  | .sortCmd => some .sortCommand
  | .statsCmd => some .statsCommand
  | .whereCmd => some .whereCommand
  | _ => none

/-- What an expression does behind the check of its floor. -/
def unchecked (f : Nat) (w : List Kind) : Script :=
  if next w = .notWord then
    label .logicalNot (token .notWord
      (call .booleanExpression Precedence.notOperand (go (.operators .logical f))))
  else if Rule.valueExpression.first.contains (next w) then
    label .booleanDefault (call .valueExpression 0 (go (.operators .logical f)))
  else leave Rule.booleanExpression.first

/-- What an expression of operands does behind the check of its floor. -/
def uncheckedOperator (f : Nat) (w : List Kind) : Script :=
  if next w = .plus || next w = .minus then
    label .arithmeticUnary (token (next w)
      (call .operatorExpression Precedence.unaryOperand (go (.operators .arithmetic f))))
  else if Rule.primaryExpression.first.contains (next w) then
    label .operatorExpressionDefault
      (call .primaryExpression 0 (go (.operators .arithmetic f)))
  else leave Rule.operatorExpression.first

/-- The script with which a rule starts over a floor. -/
def opening (r : Rule) (floor : Nat) (w : List Kind) : Script :=
  match r with
  | .singleStatement => call .query 0 (token .endOfInput done)
  | .query => label .singleCommandQuery (call .sourceCommand 0 (go (.stages floor)))
  | .sourceCommand => choice sourceCommandOf Rule.sourceCommand.first w
  | .processingCommand => choice processingCommandOf Rule.processingCommand.first w
  | .whereCommand => token .whereCmd (only .booleanExpression)
  | .booleanExpression =>
    step (.check floor Precedence.booleanMax) (unchecked floor w)
  | .valueExpression => call .operatorExpression 0 (go .comparison)
  | .operatorExpression =>
    step (.check floor Precedence.operatorMax) (uncheckedOperator floor w)
  | .primaryExpression =>
    match primaryForm? w with
    | some .constant => label .constantDefault (only .constant)
    | some .name => label .dereference (only .qualifiedName)
    | some .parenthesized =>
      label .parenthesizedExpression (token .leftParen
        (call .booleanExpression 0 (token .rightParen done)))
    | some .call =>
      label .functionExpression (call .identifier 0 (token .leftParen (go .arguments)))
    | none => leave Rule.primaryExpression.first
  | .rowCommand => token .rowCmd (only .fields)
  | .fields => call .field 0 (go (.more .fields))
  | .field =>
    match fieldForm? w with
    | some .expression => only .booleanExpression
    | some .assignment => call .qualifiedName 0 (token .assign (only .booleanExpression))
    | none => leave Rule.field.first
  | .fromCommand => token .fromCmd (call .sourceIdentifier 0 (go (.more .sources)))
  | .evalCommand => token .evalCmd (only .fields)
  | .statsCommand => token .statsCmd (call .fields 0 (go .grouping))
  | .sourceIdentifier => step (.take Rule.sourceIdentifier.first) done
  | .qualifiedName => call .identifier 0 (go (.more .parts))
  | .qualifiedNames => call .qualifiedName 0 (go (.more .names))
  | .identifier => step (.take Rule.identifier.first) done
  | .constant =>
    match next w with
    | .nullWord => label .nullLiteral (token .nullWord done)
    | .integer | .decimal => label .numericLiteral (only .number)
    | .trueWord | .falseWord => label .booleanLiteral (only .booleanValue)
    | .string => label .stringLiteral (only .string)
    | _ => leave Rule.constant.first
  | .limitCommand => token .limitCmd (token .integer done)
  | .sortCommand => token .sortCmd (call .orderExpression 0 (go (.more .orders)))
  | .orderExpression => call .booleanExpression 0 (go .direction)
  | .projectCommand => token .projectCmd (call .projectClause 0 (go (.more .clauses)))
  | .projectClause =>
    match clauseForm? w with
    | some .keep => only .sourceIdentifier
    | some .rename => call .sourceIdentifier 0 (token .assign (only .sourceIdentifier))
    | none => leave Rule.projectClause.first
  | .booleanValue => step (.take Rule.booleanValue.first) done
  | .number =>
    match next w with
    | .decimal => label .decimalLiteral (token .decimal done)
    | .integer => label .integerLiteral (token .integer done)
    | _ => leave Rule.number.first
  | .string => token .string done
  | .comparisonOperator => step (.take comparisonOperators) done
  | .explainCommand => token .explainCmd (only .subqueryExpression)
  | .subqueryExpression => token .leftBracket (call .query 0 (token .rightBracket done))

theorem opening_boolean (f : Nat) (w : List Kind) :
    opening .booleanExpression f w = step (.check f Precedence.booleanMax) (unchecked f w) := rfl

theorem opening_operator (f : Nat) (w : List Kind) :
    opening .operatorExpression f w =
      step (.check f Precedence.operatorMax) (uncheckedOperator f w) := rfl

end PipeQuery.Parser

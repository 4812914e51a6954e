import PipeQuery.Grammar.FirstFollow

/-!
# The grammar

The alternatives of the rules, each under the label its nodes bear, and the words that can be
derived by them. The rules of queries and of expressions are left-recursive and ambiguous; how the
parser groups operators is no matter here.

## Main definitions

* `Symbol`: what alternatives are made of
* `Production`: the alternatives
* `Derives`: the words that a row of symbols stands for
* `Sentential`: the rows of symbols on the way from a full query to a word

## Main results

* `Derives.append`, `Derives.split`: a row of symbols stands for the words of its parts put together
* `Derives.rule_iff`: a rule stands for the words of its alternatives
-/

namespace PipeQuery

open Token (Kind)

/-- What alternatives are made of: kinds of tokens, and rules. -/
inductive Symbol where
  | token (k : Kind)
  | rule (r : Rule)
deriving DecidableEq

/-- A symbol, and `n` more of it with separators before them. -/
def separated (s : Symbol) (separator : Kind) : Nat → List Symbol
  | 0 => [s]
  | n + 1 => s :: .token separator :: separated s separator n

/-- The alternatives of the rules, by their labels. -/
inductive Production : Label → List Symbol → Prop where
  | singleStatement : Production .singleStatement [.rule .query, .token .endOfInput]
  | singleCommandQuery : Production .singleCommandQuery [.rule .sourceCommand]
  | compositeQuery :
    Production .compositeQuery [.rule .query, .token .pipe, .rule .processingCommand]
  | sourceCommand {r : Rule} (h : r ∈ [.explainCommand, .fromCommand, .rowCommand]) :
    Production .sourceCommand [.rule r]
  | processingCommand {r : Rule}
    (h : r ∈ [.evalCommand, .limitCommand, .projectCommand, .sortCommand, .statsCommand,
      .whereCommand]) :
    Production .processingCommand [.rule r]
  | whereCommand : Production .whereCommand [.token .whereCmd, .rule .booleanExpression]
  | rowCommand : Production .rowCommand [.token .rowCmd, .rule .fields]
  | evalCommand : Production .evalCommand [.token .evalCmd, .rule .fields]
  | statsCommand : Production .statsCommand [.token .statsCmd, .rule .fields]
  | statsCommandBy :
    Production .statsCommand
      [.token .statsCmd, .rule .fields, .token .byWord, .rule .qualifiedNames]
  | limitCommand : Production .limitCommand [.token .limitCmd, .token .integer]
  | fromCommand (n : Nat) :
    Production .fromCommand (.token .fromCmd :: separated (.rule .sourceIdentifier) .comma n)
  | sortCommand (n : Nat) :
    Production .sortCommand (.token .sortCmd :: separated (.rule .orderExpression) .comma n)
  | projectCommand (n : Nat) :
    Production .projectCommand (.token .projectCmd :: separated (.rule .projectClause) .comma n)
  | explainCommand : Production .explainCommand [.token .explainCmd, .rule .subqueryExpression]
  | subqueryExpression :
    Production .subqueryExpression [.token .leftBracket, .rule .query, .token .rightBracket]
  | orderExpression {order nulls : List Symbol}
    (horder : order ∈ [[], [.token .ascWord], [.token .descWord]])
    (hnulls : nulls ∈ [[], [.token .nullsWord, .token .firstWord],
      [.token .nullsWord, .token .lastWord]]) :
    Production .orderExpression (.rule .booleanExpression :: order ++ nulls)
  | keep : Production .projectClause [.rule .sourceIdentifier]
  | rename :
    Production .projectClause [.rule .sourceIdentifier, .token .assign, .rule .sourceIdentifier]
  | fields (n : Nat) : Production .fields (separated (.rule .field) .comma n)
  | field : Production .field [.rule .booleanExpression]
  | assignment :
    Production .field [.rule .qualifiedName, .token .assign, .rule .booleanExpression]
  | logicalNot : Production .logicalNot [.token .notWord, .rule .booleanExpression]
  | booleanDefault : Production .booleanDefault [.rule .valueExpression]
  | logicalBinary {k : Kind} (h : k ∈ [.andWord, .orWord]) :
    Production .logicalBinary [.rule .booleanExpression, .token k, .rule .booleanExpression]
  | valueExpressionDefault : Production .valueExpressionDefault [.rule .operatorExpression]
  | comparison :
    Production .comparison
      [.rule .operatorExpression, .rule .comparisonOperator, .rule .operatorExpression]
  | comparisonOperator {k : Kind} (h : k ∈ comparisonOperators.toList) :
    Production .comparisonOperator [.token k]
  | operatorExpressionDefault :
    Production .operatorExpressionDefault [.rule .primaryExpression]
  | arithmeticUnary {k : Kind} (h : k ∈ [.plus, .minus]) :
    Production .arithmeticUnary [.token k, .rule .operatorExpression]
  | arithmeticBinary {k : Kind} (h : k ∈ arithmeticOperators.toList) :
    Production .arithmeticBinary
      [.rule .operatorExpression, .token k, .rule .operatorExpression]
  | constantDefault : Production .constantDefault [.rule .constant]
  | dereference : Production .dereference [.rule .qualifiedName]
  | parenthesizedExpression :
    Production .parenthesizedExpression
      [.token .leftParen, .rule .booleanExpression, .token .rightParen]
  | functionWithout :
    Production .functionExpression [.rule .identifier, .token .leftParen, .token .rightParen]
  | functionWith (n : Nat) :
    Production .functionExpression
      (.rule .identifier :: .token .leftParen ::
        separated (.rule .booleanExpression) .comma n ++ [.token .rightParen])
  | qualifiedName (n : Nat) : Production .qualifiedName (separated (.rule .identifier) .dot n)
  | qualifiedNames (n : Nat) :
    Production .qualifiedNames (separated (.rule .qualifiedName) .comma n)
  | identifier {k : Kind} (h : k ∈ [.name, .quotedName]) : Production .identifier [.token k]
  | sourceIdentifier {k : Kind} (h : k ∈ [.sourceName, .quotedSourceName]) :
    Production .sourceIdentifier [.token k]
  | nullLiteral : Production .nullLiteral [.token .nullWord]
  | numericLiteral : Production .numericLiteral [.rule .number]
  | booleanLiteral : Production .booleanLiteral [.rule .booleanValue]
  | stringLiteral : Production .stringLiteral [.rule .string]
  | decimalLiteral : Production .decimalLiteral [.token .decimal]
  | integerLiteral : Production .integerLiteral [.token .integer]
  | booleanValue {k : Kind} (h : k ∈ [.trueWord, .falseWord]) : Production .booleanValue [.token k]
  | string : Production .string [.token .string]

/-- The words that a row of symbols stands for. -/
inductive Derives : List Symbol → List Kind → Prop where
  | nil : Derives [] []
  | token {k : Kind} {ss : List Symbol} {w : List Kind} (h : Derives ss w) :
    Derives (.token k :: ss) (k :: w)
  | rule {l : Label} {body ss : List Symbol} {v w : List Kind} (hl : Production l body)
    (hv : Derives body v) (hw : Derives ss w) : Derives (.rule l.rule :: ss) (v ++ w)

/-- The rows of symbols on the way from a full query to a word. -/
inductive Sentential : List Symbol → Prop where
  | start : Sentential [.rule .singleStatement]
  | step {l : Label} {body before behind : List Symbol} (hl : Production l body)
    (h : Sentential (before ++ .rule l.rule :: behind)) : Sentential (before ++ body ++ behind)

theorem Derives.append {ss ts : List Symbol} {v w : List Kind} (hv : Derives ss v)
    (hw : Derives ts w) : Derives (ss ++ ts) (v ++ w) := by
  induction hv with
  | nil => exact hw
  | token _ ih => exact .token ih
  | rule hl hbody _ _ ih => rw [List.append_assoc]; exact .rule hl hbody ih

theorem Derives.split {ss ts : List Symbol} {u : List Kind} (h : Derives (ss ++ ts) u) :
    ∃ v w, u = v ++ w ∧ Derives ss v ∧ Derives ts w := by
  induction ss generalizing u with
  | nil => exact ⟨[], u, rfl, .nil, h⟩
  | cons s ss ih =>
    cases h with
    | token h =>
      obtain ⟨v, w, rfl, hv, hw⟩ := ih h
      exact ⟨_ :: v, w, rfl, .token hv, hw⟩
    | rule hl hbody h =>
      obtain ⟨v, w, rfl, hv, hw⟩ := ih h
      exact ⟨_ ++ v, w, (List.append_assoc ..).symm, .rule hl hbody hv, hw⟩

/-- A rule stands for the words of its alternatives. -/
theorem Derives.rule_iff {r : Rule} {w : List Kind} :
    Derives [.rule r] w ↔ ∃ l body, Production l body ∧ l.rule = r ∧ Derives body w := by
  constructor
  · intro h
    cases h with
    | rule hl hbody hnil =>
      cases hnil
      exact ⟨_, _, hl, rfl, by rwa [List.append_nil]⟩
  · rintro ⟨l, body, hl, rfl, h⟩
    simpa using Derives.rule hl h .nil

end PipeQuery

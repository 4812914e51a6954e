import PipeQuery.Grammar.Production
import PipeQuery.View.Query

/-!
# What is written at a node

What the node of a rule says in a tree without errors, told from the layout of its children: the
operands are the nodes where the grammar has them, an operator is the one token between or before
them, and a list has one entry for each of its items. How the views find these parts does not
matter here.

## Main definitions

* `LogicalOperator.kind`, `ComparisonOperator.kind`, ...: the token that an operator is written as
* `ParseTree.Listed`: nodes with separators between them, each with what it stands for
* `ParseTree.WritesBoolean`, ..., `ParseTree.WritesQuery`: what is written at the nodes of a rule

## Main results

* `LogicalOperator.ofKind?_kind`, ...: operators are read off the tokens they are written as
-/

namespace PipeQuery

open Token (Kind)

/-! ## Operators -/

/-- The token that a logical operator is written as. -/
def LogicalOperator.kind : LogicalOperator → Kind
  | and => .andWord
  | or => .orWord

@[simp]
theorem LogicalOperator.ofKind?_kind (o : LogicalOperator) : ofKind? o.kind = some o := by
  cases o <;> rfl

theorem LogicalOperator.exists_kind {k : Kind} (h : k ∈ [.andWord, .orWord]) :
    ∃ o : LogicalOperator, k = o.kind := by
  simp only [List.mem_cons, List.not_mem_nil, or_false] at h
  rcases h with rfl | rfl
  · exact ⟨and, rfl⟩
  · exact ⟨or, rfl⟩

/-- The token that a comparison is written as. -/
def ComparisonOperator.kind : ComparisonOperator → Kind
  | equal => .equal
  | notEqual => .notEqual
  | less => .less
  | lessEqual => .lessEqual
  | greater => .greater
  | greaterEqual => .greaterEqual

@[simp]
theorem ComparisonOperator.ofKind?_kind (o : ComparisonOperator) : ofKind? o.kind = some o := by
  cases o <;> rfl

/-- Each comparison operator of the grammar is one. -/
theorem ComparisonOperator.exists_kind {k : Kind} (h : k ∈ comparisonOperators.toList) :
    ∃ o : ComparisonOperator, k = o.kind := by
  rw [Token.KindSet.mem_toList, Token.KindSet.mem_def, comparisonOperators,
    Token.KindSet.contains_ofList, decide_eq_true_eq] at h
  simp only [List.mem_cons, List.not_mem_nil, or_false] at h
  rcases h with rfl | rfl | rfl | rfl | rfl | rfl
  · exact ⟨equal, rfl⟩
  · exact ⟨notEqual, rfl⟩
  · exact ⟨less, rfl⟩
  · exact ⟨lessEqual, rfl⟩
  · exact ⟨greater, rfl⟩
  · exact ⟨greaterEqual, rfl⟩

/-- The token that an arithmetic operator is written as. -/
def ArithmeticOperator.kind : ArithmeticOperator → Kind
  | plus => .plus
  | minus => .minus
  | times => .star
  | divide => .slash
  | modulo => .percent

@[simp]
theorem ArithmeticOperator.ofKind?_kind (o : ArithmeticOperator) : ofKind? o.kind = some o := by
  cases o <;> rfl

/-- Each arithmetic operator of the grammar is one. -/
theorem ArithmeticOperator.exists_kind {k : Kind} (h : k ∈ arithmeticOperators.toList) :
    ∃ o : ArithmeticOperator, k = o.kind := by
  rw [Token.KindSet.mem_toList, Token.KindSet.mem_def, arithmeticOperators,
    Token.KindSet.contains_ofList, decide_eq_true_eq] at h
  simp only [List.mem_cons, List.not_mem_nil, or_false] at h
  rcases h with rfl | rfl | rfl | rfl | rfl
  · exact ⟨plus, rfl⟩
  · exact ⟨minus, rfl⟩
  · exact ⟨times, rfl⟩
  · exact ⟨divide, rfl⟩
  · exact ⟨modulo, rfl⟩

theorem ArithmeticOperator.exists_kind_of_sign {k : Kind} (h : k ∈ [.plus, .minus]) :
    ∃ o : ArithmeticOperator, k = o.kind := by
  simp only [List.mem_cons, List.not_mem_nil, or_false] at h
  rcases h with rfl | rfl
  · exact ⟨plus, rfl⟩
  · exact ⟨minus, rfl⟩

/-- The word for a direction. -/
def SortOrder.kind : SortOrder → Kind
  | ascending => .ascWord
  | descending => .descWord

/-- The word for the place of missing values. -/
def NullsOrder.kind : NullsOrder → Kind
  | first => .firstWord
  | last => .lastWord

/-- The words behind a sort key. -/
def OrderExpression.words (o : OrderExpression) : List Kind :=
  o.order.toList.map SortOrder.kind ++ o.nulls.toList.flatMap fun n => [.nullsWord, n.kind]

theorem OrderExpression.getLast?_order (o : OrderExpression) :
    (o.words.filterMap SortOrder.ofKind?).getLast? = o.order := by
  -- The words for the nulls are not among those of a direction.
  rcases o with ⟨_, _ | (_ | _), _ | (_ | _)⟩ <;> rfl

theorem OrderExpression.getLast?_nulls (o : OrderExpression) :
    (o.words.filterMap NullsOrder.ofKind?).getLast? = o.nulls := by
  rcases o with ⟨_, _ | (_ | _), _ | (_ | _)⟩ <;> rfl

/-- The words that the grammar has behind a sort key are those of some order. -/
theorem OrderExpression.exists_words {order nulls : List Symbol}
    (horder : order ∈ [[], [.token .ascWord], [.token .descWord]])
    (hnulls : nulls ∈ [[], [.token .nullsWord, .token .firstWord],
      [.token .nullsWord, .token .lastWord]]) (c : NodeId) :
    ∃ o : OrderExpression, o.expression = c ∧ order ++ nulls = o.words.map .token := by
  obtain ⟨d, hd⟩ : ∃ d : Option SortOrder, order = (d.toList.map SortOrder.kind).map .token := by
    simp only [List.mem_cons, List.not_mem_nil, or_false] at horder
    rcases horder with rfl | rfl | rfl
    · exact ⟨none, rfl⟩
    · exact ⟨some .ascending, rfl⟩
    · exact ⟨some .descending, rfl⟩
  obtain ⟨n, hn⟩ : ∃ n : Option NullsOrder,
      nulls = (n.toList.flatMap fun n => [.nullsWord, n.kind]).map .token := by
    simp only [List.mem_cons, List.not_mem_nil, or_false] at hnulls
    rcases hnulls with rfl | rfl | rfl
    · exact ⟨none, rfl⟩
    · exact ⟨some .first, rfl⟩
    · exact ⟨some .last, rfl⟩
  exact ⟨⟨c, d, n⟩, rfl, by rw [hd, hn, words, List.map_append]⟩

/-- The token that a number is written as. -/
def NumberLiteral.Form.kind : NumberLiteral.Form → Kind
  | integer => .integer
  | decimal => .decimal

/-- The token that a truth value is written as. -/
def truthKind (b : Bool) : Kind := if b then .trueWord else .falseWord

/-- The rule of the node of a command. -/
def Command.Action.rule : Command.Action → Rule
  | explainCmd _ => .explainCommand
  | fromCmd _ => .fromCommand
  | rowCmd _ => .rowCommand
  | evalCmd _ => .evalCommand
  | statsCmd _ _ => .statsCommand
  | whereCmd _ => .whereCommand
  | limitCmd _ => .limitCommand
  | sortCmd _ => .sortCommand
  | projectCmd _ => .projectCommand

/-- The rules of the commands that a query starts with. -/
def sourceCommands : List Rule := [.explainCommand, .fromCommand, .rowCommand]

/-- The rules of the commands behind a pipe. -/
def processingCommands : List Rule :=
  [.evalCommand, .limitCommand, .projectCommand, .sortCommand, .statsCommand, .whereCommand]

namespace ParseTree

variable (t : ParseTree)

/-! ## Lists and names -/

/-- Nodes with separators between them: one item for each node, in order. -/
inductive Listed {α : Type} (separator : Kind) (item : NodeId → α → Prop) :
    List Slot → List α → Prop where
  | last {c : NodeId} {a : α} (h : item c a) : Listed separator item [.node c] [a]
  | more {c : NodeId} {a : α} {i : Nat} {slots : List Slot} {as : List α} (h : item c a)
    (hi : (t.token i).kind = separator) (hs : Listed separator item slots as) :
    Listed separator item (.node c :: .token i :: slots) (a :: as)

/-- A node of a rule with a single token, and the name that is written by it. -/
def WritesName (r : Rule) (id : NodeId) (name : String) : Prop :=
  t.rule id = r ∧ ∃ i, t.children id = [.token i] ∧ name = unquoteName (t.token i).text

/-- A name with a part for each of its identifiers. -/
def WritesQualifiedName (id : NodeId) (n : QualifiedName) : Prop :=
  t.rule id = .qualifiedName ∧ t.Listed .dot (t.WritesName .identifier) (t.children id) n.parts

/-! ## Expressions -/

/-- What is written at a `booleanExpression`. -/
inductive WritesBoolean (id : NodeId) : BooleanExpression → Prop where
  | not {i o : Nat} (hc : t.children id = [.token i, .node o])
    (hi : (t.token i).kind = .notWord) (ho : t.rule o = .booleanExpression) :
    WritesBoolean id (.not o)
  | value {o : Nat} (hc : t.children id = [.node o]) (ho : t.rule o = .valueExpression) :
    WritesBoolean id (.value o)
  | binary {l i r : Nat} {op : LogicalOperator} (hc : t.children id = [.node l, .token i, .node r])
    (hl : t.rule l = .booleanExpression) (hi : (t.token i).kind = op.kind)
    (hr : t.rule r = .booleanExpression) : WritesBoolean id (.binary l op r)

/-- What is written at a `valueExpression`. -/
inductive WritesValue (id : NodeId) : ValueExpression → Prop where
  | plain {o : Nat} (hc : t.children id = [.node o]) (ho : t.rule o = .operatorExpression) :
    WritesValue id (.plain o)
  | comparison {l o i r : Nat} {op : ComparisonOperator}
    (hc : t.children id = [.node l, .node o, .node r]) (hl : t.rule l = .operatorExpression)
    (ho : t.rule o = .comparisonOperator) (hop : t.children o = [.token i])
    (hi : (t.token i).kind = op.kind) (hr : t.rule r = .operatorExpression) :
    WritesValue id (.comparison l op r)

/-- What is written at an `operatorExpression`. -/
inductive WritesOperator (id : NodeId) : OperatorExpression → Prop where
  | primary {o : Nat} (hc : t.children id = [.node o]) (ho : t.rule o = .primaryExpression) :
    WritesOperator id (.primary o)
  | unary {i o : Nat} {op : ArithmeticOperator} (hc : t.children id = [.token i, .node o])
    (hi : (t.token i).kind = op.kind) (ho : t.rule o = .operatorExpression) :
    WritesOperator id (.unary op o)
  | binary {l i r : Nat} {op : ArithmeticOperator}
    (hc : t.children id = [.node l, .token i, .node r]) (hl : t.rule l = .operatorExpression)
    (hi : (t.token i).kind = op.kind) (hr : t.rule r = .operatorExpression) :
    WritesOperator id (.binary l op r)

/-- What is written at a `constant`. -/
inductive WritesConstant (id : NodeId) : Constant → Prop where
  | null {i : Nat} (hc : t.children id = [.token i]) (hi : (t.token i).kind = .nullWord) :
    WritesConstant id .null
  | number {c i : Nat} {form : NumberLiteral.Form} (hc : t.children id = [.node c])
    (hr : t.rule c = .number) (htoken : t.children c = [.token i])
    (hi : (t.token i).kind = form.kind) : WritesConstant id (.number ⟨form, (t.token i).text⟩)
  | truth {c i : Nat} {b : Bool} (hc : t.children id = [.node c]) (hr : t.rule c = .booleanValue)
    (htoken : t.children c = [.token i]) (hi : (t.token i).kind = truthKind b) :
    WritesConstant id (.truth b)
  | text {c i : Nat} (hc : t.children id = [.node c]) (hr : t.rule c = .string)
    (htoken : t.children c = [.token i]) (hi : (t.token i).kind = .string) :
    WritesConstant id (.text (unquoteString (t.token i).text))

/-- What is written at a `primaryExpression`. -/
inductive WritesPrimary (id : NodeId) : PrimaryExpression → Prop where
  | constant {c : Nat} {v : Constant} (hc : t.children id = [.node c]) (hr : t.rule c = .constant)
    (hv : t.WritesConstant c v) : WritesPrimary id (.constant v)
  | name {c : Nat} {n : QualifiedName} (hc : t.children id = [.node c])
    (hn : t.WritesQualifiedName c n) : WritesPrimary id (.name n)
  | parenthesized {i c j : Nat} (hc : t.children id = [.token i, .node c, .token j])
    (hi : (t.token i).kind = .leftParen) (hr : t.rule c = .booleanExpression)
    (hj : (t.token j).kind = .rightParen) : WritesPrimary id (.parenthesized c)
  -- The grammar has an alternative of its own for a call without arguments.
  | callWithout {c i j : Nat} {f : String} (hc : t.children id = [.node c, .token i, .token j])
    (hf : t.WritesName .identifier c f) (hi : (t.token i).kind = .leftParen)
    (hj : (t.token j).kind = .rightParen) : WritesPrimary id (.call f [])
  | call {c i j : Nat} {f : String} {slots : List Slot} {args : List NodeId}
    (hc : t.children id = .node c :: .token i :: (slots ++ [.token j]))
    (hf : t.WritesName .identifier c f) (hi : (t.token i).kind = .leftParen)
    (hargs : t.Listed .comma (fun a b => a = b ∧ t.rule b = .booleanExpression) slots args)
    (hj : (t.token j).kind = .rightParen) : WritesPrimary id (.call f args)

/-! ## The items of commands -/

/-- What is written at a `field`. -/
inductive WritesField (id : NodeId) : Field → Prop where
  | plain {c : Nat} (hid : t.rule id = .field) (hc : t.children id = [.node c])
    (hr : t.rule c = .booleanExpression) : WritesField id ⟨none, c⟩
  | assigned {n i c : Nat} {name : QualifiedName} (hid : t.rule id = .field)
    (hc : t.children id = [.node n, .token i, .node c]) (hn : t.WritesQualifiedName n name)
    (hi : (t.token i).kind = .assign) (hr : t.rule c = .booleanExpression) :
    WritesField id ⟨some name, c⟩

/-- What is written at an `orderExpression`: a sort key, and the words behind it. -/
inductive WritesOrder (id : NodeId) : OrderExpression → Prop where
  | mk {o : OrderExpression} {is : List Nat} (hid : t.rule id = .orderExpression)
    (hc : t.children id = .node o.expression :: is.map .token)
    (hr : t.rule o.expression = .booleanExpression)
    (his : is.map (fun i => (t.token i).kind) = o.words) : WritesOrder id o

/-- What is written at a `projectClause`. -/
inductive WritesClause (id : NodeId) : ProjectClause → Prop where
  | keep {c : Nat} {name : String} (hid : t.rule id = .projectClause)
    (hc : t.children id = [.node c]) (hn : t.WritesName .sourceIdentifier c name) :
    WritesClause id (.keep name)
  | rename {c i d : Nat} {new old : String} (hid : t.rule id = .projectClause)
    (hc : t.children id = [.node c, .token i, .node d])
    (hnew : t.WritesName .sourceIdentifier c new) (hi : (t.token i).kind = .assign)
    (hold : t.WritesName .sourceIdentifier d old) : WritesClause id (.rename new old)

/-- The fields that are listed at a node of the rule `fields`. -/
def WritesFields (id : NodeId) (fields : List Field) : Prop :=
  t.rule id = .fields ∧ t.Listed .comma t.WritesField (t.children id) fields

/-- The names that are listed at a node of the rule `qualifiedNames`. -/
def WritesGroups (id : NodeId) (groups : List QualifiedName) : Prop :=
  t.rule id = .qualifiedNames ∧ t.Listed .comma t.WritesQualifiedName (t.children id) groups

/-! ## Commands and queries -/

/-- What is written at the node of a single command. -/
inductive WritesAction (id : NodeId) : Command.Action → Prop where
  -- The brackets of the query make up a node of their own.
  | explainCmd {i c l q r : Nat} (hc : t.children id = [.token i, .node c])
    (hi : (t.token i).kind = .explainCmd) (hs : t.rule c = .subqueryExpression)
    (hquery : t.children c = [.token l, .node q, .token r]) (hl : (t.token l).kind = .leftBracket)
    (hq : t.rule q = .query) (hr : (t.token r).kind = .rightBracket) :
    WritesAction id (.explainCmd q)
  | fromCmd {i : Nat} {slots : List Slot} {sources : List String}
    (hc : t.children id = .token i :: slots) (hi : (t.token i).kind = .fromCmd)
    (hs : t.Listed .comma (t.WritesName .sourceIdentifier) slots sources) :
    WritesAction id (.fromCmd sources)
  | rowCmd {i c : Nat} {fields : List Field} (hc : t.children id = [.token i, .node c])
    (hi : (t.token i).kind = .rowCmd) (hf : t.WritesFields c fields) :
    WritesAction id (.rowCmd fields)
  | evalCmd {i c : Nat} {fields : List Field} (hc : t.children id = [.token i, .node c])
    (hi : (t.token i).kind = .evalCmd) (hf : t.WritesFields c fields) :
    WritesAction id (.evalCmd fields)
  | statsCmd {i c : Nat} {fields : List Field} (hc : t.children id = [.token i, .node c])
    (hi : (t.token i).kind = .statsCmd) (hf : t.WritesFields c fields) :
    WritesAction id (.statsCmd fields [])
  | statsBy {i c j d : Nat} {fields : List Field} {groups : List QualifiedName}
    (hc : t.children id = [.token i, .node c, .token j, .node d])
    (hi : (t.token i).kind = .statsCmd) (hf : t.WritesFields c fields)
    (hj : (t.token j).kind = .byWord) (hg : t.WritesGroups d groups) :
    WritesAction id (.statsCmd fields groups)
  | whereCmd {i c : Nat} (hc : t.children id = [.token i, .node c])
    (hi : (t.token i).kind = .whereCmd) (hr : t.rule c = .booleanExpression) :
    WritesAction id (.whereCmd c)
  | limitCmd {i j : Nat} (hc : t.children id = [.token i, .token j])
    (hi : (t.token i).kind = .limitCmd) (hj : (t.token j).kind = .integer) :
    WritesAction id (.limitCmd (t.token j))
  -- The items of these lists are children of the command itself, not of a list below it.
  | sortCmd {i : Nat} {slots : List Slot} {orders : List OrderExpression}
    (hc : t.children id = .token i :: slots) (hi : (t.token i).kind = .sortCmd)
    (hs : t.Listed .comma t.WritesOrder slots orders) : WritesAction id (.sortCmd orders)
  | projectCmd {i : Nat} {slots : List Slot} {clauses : List ProjectClause}
    (hc : t.children id = .token i :: slots) (hi : (t.token i).kind = .projectCmd)
    (hs : t.Listed .comma t.WritesClause slots clauses) : WritesAction id (.projectCmd clauses)

/-- What is written at a command: at its own node, or at the node above that only chooses it. -/
inductive WritesCommand (id : NodeId) : Command → Prop where
  | own {a : Command.Action} (h : t.WritesAction id a) : WritesCommand id ⟨id, a⟩
  | chosen {c : Nat} {a : Command.Action} (hc : t.children id = [.node c])
    (h : t.WritesAction c a) : WritesCommand id ⟨c, a⟩

/-- What is written at a `query`. -/
inductive WritesQuery (id : NodeId) : Query → Prop where
  | single {c : Nat} {command : Command} (hc : t.children id = [.node c])
    (hr : t.rule c = .sourceCommand) (h : t.WritesCommand c command)
    (ha : command.action.rule ∈ sourceCommands) : WritesQuery id (.single command)
  | composite {q i c : Nat} {command : Command}
    (hc : t.children id = [.node q, .token i, .node c]) (hq : t.rule q = .query)
    (hi : (t.token i).kind = .pipe) (hr : t.rule c = .processingCommand)
    (h : t.WritesCommand c command) (ha : command.action.rule ∈ processingCommands) :
    WritesQuery id (.composite q command)

end ParseTree

end PipeQuery

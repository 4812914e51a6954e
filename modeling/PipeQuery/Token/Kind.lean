/-!
# Token kinds

The vocabulary of the query language: nine command words, the words and operators of
expressions, literals, names, and the end of the input. The kinds are listed once, in a fixed
order; a kind's place in that order is also its bit in a `KindSet`.

## Main definitions

* `Token.Kind`: the vocabulary
* `Kind.all`, `Kind.index`: the fixed order
* `Kind.symbol`: the name of a kind in the vocabulary, such as `INTEGER_LITERAL`
* `Kind.spelling?`: the text of a kind that is always written the same way
* `Kind.display`: what messages call a kind

## Main results

* `Kind.mem_all`, `Kind.all_getElem?_index`: the list is complete and in the order of the indexes
* `Kind.index_injective`, `Kind.index_lt`: every kind has an index of its own, below 49
-/

namespace PipeQuery.Token

/-- The kinds of tokens. -/
inductive Kind where
  | evalCmd | explainCmd | fromCmd | rowCmd | statsCmd | whereCmd | sortCmd | limitCmd | projectCmd
  /-- A word in command position that names no command. -/
  | unknownCmd
  | pipe
  | string | integer | decimal
  | byWord | andWord | ascWord
  | assign | comma
  | descWord
  | dot
  | falseWord | firstWord | lastWord
  | leftParen | leftBracket | rightBracket
  | notWord | nullWord | nullsWord | orWord
  | rightParen
  | trueWord
  | equal | notEqual | less | lessEqual | greater | greaterEqual
  | plus | minus | star | slash | percent
  /-- A bare name in expression position. -/
  | name
  /-- A name between backticks in expression position. -/
  | quotedName
  /-- The name of a source or a column after `from` or `project`. -/
  | sourceName
  /-- Such a name between backticks. -/
  | quotedSourceName
  | endOfInput
deriving DecidableEq, Inhabited

namespace Kind

/-- The place of a kind in the vocabulary. -/
def index (k : Kind) : Nat := k.ctorIdx

/-- Every kind, in the order of the vocabulary. -/
def all : List Kind :=
  [.evalCmd, .explainCmd, .fromCmd, .rowCmd, .statsCmd, .whereCmd, .sortCmd, .limitCmd,
    .projectCmd, .unknownCmd, .pipe, .string, .integer, .decimal, .byWord, .andWord, .ascWord,
    .assign, .comma, .descWord, .dot, .falseWord, .firstWord, .lastWord, .leftParen, .leftBracket,
    .rightBracket, .notWord, .nullWord, .nullsWord, .orWord, .rightParen, .trueWord, .equal,
    .notEqual, .less, .lessEqual, .greater, .greaterEqual, .plus, .minus, .star, .slash, .percent,
    .name, .quotedName, .sourceName, .quotedSourceName, .endOfInput]

theorem length_all : all.length = 49 := rfl

theorem all_getElem?_index (k : Kind) : all[k.index]? = some k := by
  cases k <;> rfl

theorem mem_all (k : Kind) : k ∈ all :=
  List.mem_of_getElem? (all_getElem?_index k)

theorem index_lt (k : Kind) : k.index < 49 :=
  (List.getElem?_eq_some_iff.mp (all_getElem?_index k)).1

theorem index_injective {k k' : Kind} (h : k.index = k'.index) : k = k' := by
  have := all_getElem?_index k
  rw [h, all_getElem?_index k'] at this
  exact (Option.some.inj this).symm

/-- The name of a kind in the vocabulary. -/
def symbol : Kind → String
  | evalCmd => "EVAL"
  | explainCmd => "EXPLAIN"
  | fromCmd => "FROM"
  | rowCmd => "ROW"
  | statsCmd => "STATS"
  | whereCmd => "WHERE"
  | sortCmd => "SORT"
  | limitCmd => "LIMIT"
  | projectCmd => "PROJECT"
  | unknownCmd => "UNKNOWN_CMD"
  | pipe => "PIPE"
  | string => "STRING"
  | integer => "INTEGER_LITERAL"
  | decimal => "DECIMAL_LITERAL"
  | byWord => "BY"
  | andWord => "AND"
  | ascWord => "ASC"
  | assign => "ASSIGN"
  | comma => "COMMA"
  | descWord => "DESC"
  | dot => "DOT"
  | falseWord => "FALSE"
  | firstWord => "FIRST"
  | lastWord => "LAST"
  | leftParen => "LP"
  | leftBracket => "OPENING_BRACKET"
  | rightBracket => "CLOSING_BRACKET"
  | notWord => "NOT"
  | nullWord => "NULL"
  | nullsWord => "NULLS"
  | orWord => "OR"
  | rightParen => "RP"
  | trueWord => "TRUE"
  | equal => "EQ"
  | notEqual => "NEQ"
  | less => "LT"
  | lessEqual => "LTE"
  | greater => "GT"
  | greaterEqual => "GTE"
  | plus => "PLUS"
  | minus => "MINUS"
  | star => "ASTERISK"
  | slash => "SLASH"
  | percent => "PERCENT"
  | name => "UNQUOTED_IDENTIFIER"
  | quotedName => "QUOTED_IDENTIFIER"
  | sourceName => "SRC_UNQUOTED_IDENTIFIER"
  | quotedSourceName => "SRC_QUOTED_IDENTIFIER"
  | endOfInput => "EOF"

/-- The kind with a given vocabulary name. -/
def ofSymbol? (s : String) : Option Kind := all.find? (·.symbol = s)

/-- The text of a kind that is always written the same way, letter case apart. -/
def spelling? : Kind → Option String
  | evalCmd => some "eval"
  | explainCmd => some "explain"
  | fromCmd => some "from"
  | rowCmd => some "row"
  | statsCmd => some "stats"
  | whereCmd => some "where"
  | sortCmd => some "sort"
  | limitCmd => some "limit"
  | projectCmd => some "project"
  | pipe => some "|"
  | byWord => some "by"
  | andWord => some "and"
  | ascWord => some "asc"
  | assign => some "="
  | comma => some ","
  | descWord => some "desc"
  | dot => some "."
  | falseWord => some "false"
  | firstWord => some "first"
  | lastWord => some "last"
  | leftParen => some "("
  | leftBracket => some "["
  | rightBracket => some "]"
  | notWord => some "not"
  | nullWord => some "null"
  | nullsWord => some "nulls"
  | orWord => some "or"
  | rightParen => some ")"
  | trueWord => some "true"
  | equal => some "=="
  | notEqual => some "!="
  | less => some "<"
  | lessEqual => some "<="
  | greater => some ">"
  | greaterEqual => some ">="
  | plus => some "+"
  | minus => some "-"
  | star => some "*"
  | slash => some "/"
  | percent => some "%"
  | unknownCmd | string | integer | decimal | name | quotedName | sourceName | quotedSourceName
  | endOfInput => none

/-- The fixed spelling of a kind as messages quote it. The end of the input has no text and is
written `<EOF>`, without quotes. -/
def literal? (k : Kind) : Option String :=
  if k = endOfInput then some "<EOF>" else k.spelling?.map fun s => "'" ++ s ++ "'"

/-- What messages call a kind: its quoted spelling if it has one, else its vocabulary name. -/
def display (k : Kind) : String := k.literal?.getD k.symbol

end Kind

end PipeQuery.Token

/-!
# JSON values and their text

A JSON value keeps the fields of an object in the order in which they were given. It is written
in two layouts: compact, without any blank, and indented by two spaces for each level.

## Main definitions

* `Json`: values; a number is an integer divided by a power of ten
* `Json.quote`: a text as a JSON string
* `Json.compact`: the compact layout
* `Json.indented`: the indented layout, at a given level
* `Json.reindent`: the lines of a text, indented to a deeper level

## Main results

* `Json.compact_quote`, `Json.indented_quote`: both layouts write scalars alike
-/

namespace PipeQuery

/-- A JSON value. -/
inductive Json where
  | null
  | bool (b : Bool)
  /-- The number `digits / 10 ^ places`; a number with places is never an integer in form. -/
  | number (digits : Int) (places : Nat)
  | string (s : String)
  | array (items : List Json)
  /-- The fields stand in the order in which they are written. -/
  | object (fields : List (String × Json))

namespace Json

instance : Inhabited Json := ⟨null⟩

/-- The natural number `n`. -/
def nat (n : Nat) : Json := number n 0

/-! ## Strings -/

/-- The digits of a control character's escape. -/
def escapeDigits (c : Char) : List Char :=
  [Nat.digitChar (c.toNat / 16), Nat.digitChar (c.toNat % 16)]

/-- A character inside a JSON string. Quotes, backslashes and control characters are escaped, and
every other character stands for itself. -/
def escape (c : Char) : List Char :=
  if c = '"' then ['\\', '"']
  else if c = '\\' then ['\\', '\\']
  else if c = '\n' then ['\\', 'n']
  else if c = '\r' then ['\\', 'r']
  else if c = '\t' then ['\\', 't']
  else if c = '\x08' then ['\\', 'b']
  else if c = '\x0c' then ['\\', 'f']
  else if c.toNat < 0x20 then '\\' :: 'u' :: '0' :: '0' :: escapeDigits c
  else [c]

/-- The text `s` as a JSON string. -/
def quote (s : String) : String :=
  String.ofList ('"' :: s.toList.flatMap escape ++ ['"'])

/-! ## Numbers -/

/-- The digits of `n` with a point before the last `places` of them. -/
def pointed (n places : Nat) : String :=
  let whole := n / Nat.pow 10 places
  let rest := toString (n % Nat.pow 10 places)
  toString whole ++ "." ++ "".pushn '0' (places - rest.length) ++ rest

/-- The text of the number `digits / 10 ^ places`. -/
def numeral (digits : Int) (places : Nat) : String :=
  let sign := if digits < 0 then "-" else ""
  sign ++ if places = 0 then toString digits.natAbs else pointed digits.natAbs places

/-! ## Compact layout -/

mutual

/-- The value without any blank. -/
def compact : Json → String
  | null => "null"
  | bool b => if b then "true" else "false"
  | number digits places => numeral digits places
  | string s => quote s
  | array items => "[" ++ compactItems items ++ "]"
  | object fields => "\x7b" ++ compactFields fields ++ "\x7d"

/-- The items of an array, with commas between them. -/
def compactItems : List Json → String
  | [] => ""
  | [j] => compact j
  | j :: k :: rest => compact j ++ "," ++ compactItems (k :: rest)

/-- The fields of an object, with commas between them. -/
def compactFields : List (String × Json) → String
  | [] => ""
  | [(key, j)] => quote key ++ ":" ++ compact j
  | (key, j) :: f :: rest => quote key ++ ":" ++ compact j ++ "," ++ compactFields (f :: rest)

end

/-! ## Indented layout -/

/-- A line break and the indentation of a level. -/
def lineBreak (level : Nat) : String := "".pushn ' ' (2 * level) |> ("\n" ++ ·)

mutual

/-- The value over several lines, where the line it starts on has the given level. An empty array
or object is written without a break. -/
def indented (level : Nat) : Json → String
  | null => "null"
  | bool b => if b then "true" else "false"
  | number digits places => numeral digits places
  | string s => quote s
  | array [] => "[]"
  | array (j :: rest) => "[" ++ indentedItems level (j :: rest) ++ lineBreak level ++ "]"
  | object [] => "\x7b\x7d"
  | object (f :: rest) =>
    "\x7b" ++ indentedFields level (f :: rest) ++ lineBreak level ++ "\x7d"

/-- The items of an array, each on a line of its own, one level deeper. -/
def indentedItems (level : Nat) : List Json → String
  | [] => ""
  | [j] => lineBreak (level + 1) ++ indented (level + 1) j
  | j :: k :: rest =>
    lineBreak (level + 1) ++ indented (level + 1) j ++ "," ++ indentedItems level (k :: rest)

/-- The fields of an object, each on a line of its own, one level deeper. -/
def indentedFields (level : Nat) : List (String × Json) → String
  | [] => ""
  | [(key, j)] => lineBreak (level + 1) ++ quote key ++ ": " ++ indented (level + 1) j
  | (key, j) :: f :: rest =>
    lineBreak (level + 1) ++ quote key ++ ": " ++ indented (level + 1) j ++ "," ++
      indentedFields level (f :: rest)

end

/-- The text with its lines, but for the first, indented to a level more. -/
def reindent (level : Nat) (text : String) : String :=
  String.ofList (text.toList.flatMap fun c => if c = '\n' then (lineBreak level).toList else [c])

theorem compact_quote (s : String) : (string s).compact = quote s := by
  simp only [compact]

theorem indented_quote (level : Nat) (s : String) : (string s).indented level = quote s := by
  simp only [indented]

end Json

end PipeQuery

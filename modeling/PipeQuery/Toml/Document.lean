import PipeQuery.Toml.DateTime

/-!
# TOML documents

A document is read line by line: comments, headers in brackets, and keys with values. Keys and values
that go too deep are not read.

## Main definitions

* `Toml.nestingLimit`: how deep keys and values may go
* `Toml.key`, `Toml.value`: readers of a dotted key and of a value
* `Toml.Line`, `Toml.lines?`: the lines of a document
* `Toml.document?`: the table a document stands for
-/

namespace PipeQuery.Toml

/-! ## Gaps -/

/-- A text without the blanks in front. -/
def dropBlanks (cs : List Char) : List Char := cs.dropWhile fun c => c = ' ' || c = '\t'

/-- Skip blanks. -/
def blanks : Reader Unit := fun cs => some ((), dropBlanks cs)

/-- Skip a comment if there is one. -/
def comment : Reader Unit
  | '#' :: cs =>
    let rest := cs.dropWhile isPrintable
    match rest with
    | [] | '\n' :: _ | '\r' :: '\n' :: _ => some ((), rest)
    | _ => none
  | cs => some ((), cs)

/-- Skip the end of a line, which may also be the end of the document. -/
def lineEnd : Reader Unit
  | [] => some ((), [])
  | '\n' :: cs => some ((), cs)
  | '\r' :: '\n' :: cs => some ((), cs)
  | _ => none

/-- Skip blanks, comments and line ends, at most `n` of the latter. -/
def gapUpTo : Nat → Reader Unit
  | 0 => pure ()
  | n + 1 => do
    blanks
    comment
    let cs ← get
    match cs with
    | '\n' :: cs | '\r' :: '\n' :: cs => do
      set cs
      gapUpTo n
    | _ => pure ()

/-- Skip blanks, comments and line ends. -/
def gap : Reader Unit := fun cs => gapUpTo (cs.length + 1) cs

/-! ## Keys -/

/-- The most parts of a dotted key, and the most arrays and tables that stand inside one another in
a value. -/
def nestingLimit : Nat := 80

/-- Whether a key without marks may hold the character. -/
def isKeyChar (c : Char) : Bool := c.isAlphanum || c = '_' || c = '-'

/-- Read a key without dots. -/
def simpleKey : Reader String
  | '"' :: cs => quoted '"' cs
  | '\'' :: cs => quoted '\'' cs
  | cs =>
    let name := cs.takeWhile isKeyChar
    if name.isEmpty then none else some (String.ofList name, cs.dropWhile isKeyChar)

/-- Read a dotted key of at most `n` parts. -/
def keyUpTo : Nat → Reader (List String)
  | 0 => failure
  | n + 1 => do
    blanks
    let part ← simpleKey
    blanks
    if ← startsWith '.' then
      exactly "."
      return part :: (← keyUpTo n)
    else return [part]

/-- Read a dotted key and the blanks around it. -/
def key : Reader (List String) := keyUpTo nestingLimit

/-! ## Values -/

/-- Whether a word without marks may hold the character. -/
def isWordChar (c : Char) : Bool := isKeyChar c || c = '+' || c = '.' || c = ':'

/-- A text without marks and what stands behind it. A date and a time may be two words of it, with a
space between them. -/
def bareText (cs : List Char) : List Char × List Char :=
  let word := cs.takeWhile isWordChar
  let rest := cs.dropWhile isWordChar
  let next := (rest.drop 1).takeWhile isWordChar
  if isDateTime word && rest.head? = some ' ' && next.head?.any Char.isDigit then
    (word ++ ' ' :: next, rest.drop (1 + next.length))
  else (word, rest)

/-- The value of a text without marks. -/
def bareScalar? (cs : List Char) : Option Toml :=
  if cs = "true".toList then some (.boolean true)
  else if cs = "false".toList then some (.boolean false)
  else if isDateTime cs then some .dateTime
  else ((integer? cs).map Toml.integer).or ((float? cs).map Toml.float)

/-- Read a value without marks. -/
def bareScalar : Reader Toml := fun cs => (bareScalar? (bareText cs).1).map (·, (bareText cs).2)

mutual

/-- Read a value with at most `depth` arrays and tables inside one another, and at most `n` parts
nested or side by side. -/
def valueUpTo (depth : Nat) : Nat → Reader Toml
  | 0 => failure
  | n + 1 => fun cs =>
    match cs with
    | '"' :: '"' :: '"' :: cs => (longQuoted '"' cs).map fun (s, cs) => (.string s, cs)
    | '\'' :: '\'' :: '\'' :: cs => (longQuoted '\'' cs).map fun (s, cs) => (.string s, cs)
    | '"' :: cs => (quoted '"' cs).map fun (s, cs) => (.string s, cs)
    | '\'' :: cs => (quoted '\'' cs).map fun (s, cs) => (.string s, cs)
    | '[' :: cs =>
      if depth = 0 then none
      else (itemsUpTo (depth - 1) n cs).map fun (items, cs) => (.array items, cs)
    | '\x7b' :: cs =>
      if depth = 0 then none
      else
        (entriesUpTo (depth - 1) n [] cs).map fun (entries, cs) => (.table .written entries, cs)
    | cs => bareScalar cs

/-- Read the items of an array and its closing bracket. -/
def itemsUpTo (depth : Nat) : Nat → Reader (List Toml)
  | 0 => failure
  | n + 1 => do
    gap
    if ← startsWith ']' then
      exactly "]"
      return []
    let item ← valueUpTo depth n
    gap
    if ← startsWith ',' then
      exactly ","
      return item :: (← itemsUpTo depth n)
    exactly "]"
    return [item]

/-- Read the entries of a table between braces and its closing brace, behind the entries read so
far. -/
def entriesUpTo (depth : Nat) : Nat → Entries → Reader Entries
  | 0, _ => failure
  | n + 1, entries => do
    gap
    if ← startsWith '\x7d' then
      exactly "\x7d"
      return entries
    let path ← key
    exactly "="
    blanks
    let value ← valueUpTo depth n
    let entries ← StateT.lift (assign value true path entries)
    gap
    if ← startsWith ',' then
      exactly ","
      entriesUpTo depth n entries
    else
      exactly "\x7d"
      return entries

end

/-- Read a value. -/
def value : Reader Toml := fun cs => valueUpTo nestingLimit (2 * cs.length + 2) cs

/-! ## Lines -/

/-- A line of a document. -/
inductive Line where
  | blank
  /-- A header, in double brackets if `isRow`. -/
  | header (isRow : Bool) (path : List String)
  | entry (path : List String) (value : Toml)

/-- Read a line up to the comment at its end. -/
def lineStart : Reader Line := fun cs =>
  match dropBlanks cs with
  | '[' :: '[' :: cs => run (do let path ← key; exactly "]]"; return .header true path) cs
  | '[' :: cs => run (do let path ← key; exactly "]"; return .header false path) cs
  | [] => some (.blank, [])
  | c :: cs =>
    if c ∈ ['#', '\n', '\r'] then some (.blank, c :: cs)
    else run (do let path ← key; exactly "="; blanks; return .entry path (← value)) (c :: cs)
where
  /-- Run a reader on a text. -/
  run (r : Reader Line) (cs : List Char) : Option (Line × List Char) := r cs

/-- Read a line and its end. -/
def line : Reader Line := do
  let l ← lineStart
  blanks
  comment
  lineEnd
  return l

/-- The lines of a document, at most `n` of them. -/
def linesUpTo : Nat → List Char → Option (List Line)
  | _, [] => some []
  | 0, _ => none
  | n + 1, cs => do
    let (l, cs) ← line cs
    return l :: (← linesUpTo n cs)

/-- The lines of a document. A byte order mark in front does not count. -/
def lines? (cs : List Char) : Option (List Line) :=
  let cs := if cs.head? = some '\ufeff' then cs.drop 1 else cs
  linesUpTo cs.length cs

/-- Put the entries up to the next header into a table. -/
def addEntries : List Line → Entries → Option Entries
  | .entry path value :: rest, t => (assign value true path t).bind (addEntries rest)
  | .blank :: rest, t => addEntries rest t
  | _, t => some t

/-- Add each header of a document with the entries behind it to a table. -/
def addSections : List Line → Entries → Option Entries
  | [], t => some t
  | .header isRow path :: rest, t => (extend isRow (addEntries rest) path t).bind (addSections rest)
  | _ :: rest, t => addSections rest t

/-- The table that a document stands for. -/
def document? (source : String) : Option Entries := do
  let ls ← lines? source.toList
  addSections ls (← addEntries ls [])

end PipeQuery.Toml

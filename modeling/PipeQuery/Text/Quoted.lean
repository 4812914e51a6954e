/-!
# Quoted names and strings

A name in backticks may hold any text, with its own backticks doubled. A string stands in double
quotes with backslash escapes, or between triples of double quotes, where it is written as it is.
Reading takes the marks off and resolves what stands between them.

## Main definitions

* `unmark?`: what stands between a mark at the start of a text and the same mark at its end
* `double`, `undouble`: doubling the backticks of a text, and undoing it
* `escape`, `unescape`: escaping the characters of a string, and resolving escapes
* `quoteName`, `quoteString`, `quoteRaw`: a text in each of the three kinds of marks
* `unquoteName`, `unquoteString`: the text that is meant by a quoted one

## Main results

* `unmark?_mark`: the mark comes off a marked text
* `undouble_double`, `unescape_escape`: what was doubled or escaped reads back
-/

namespace PipeQuery

namespace Quoted

/-! ## Marks -/

/-- A text between a mark and the same mark. -/
def mark (m cs : List Char) : List Char := m ++ cs ++ m

/-- What stands between a mark at the start of a text and the same mark at its end, if the two do
not overlap. -/
def unmark? (m cs : List Char) : Option (List Char) :=
  let inner := cs.drop m.length
  if m.isPrefixOf cs && m.isSuffixOf inner then some (inner.take (inner.length - m.length))
  else none

theorem unmark?_mark (m cs : List Char) : unmark? m (mark m cs) = some cs := by
  simp [unmark?, mark]

/-! ## Names -/

/-- Each backtick of a text written twice. -/
def double : List Char → List Char
  | [] => []
  | c :: cs => if c = '\x60' then '\x60' :: '\x60' :: double cs else c :: double cs

/-- Each pair of backticks of a text, from the left, replaced by a single one. -/
def undouble : List Char → List Char
  | [] => []
  | '\x60' :: '\x60' :: cs => '\x60' :: undouble cs
  | c :: cs => c :: undouble cs

theorem undouble_double (cs : List Char) : undouble (double cs) = cs := by
  induction cs with
  | nil => rfl
  | cons c cs ih => by_cases h : c = '\x60' <;> simp [double, undouble, h, ih]

/-! ## Strings -/

/-- A character inside double quotes. -/
def escapeChar (c : Char) : List Char :=
  if c = '\\' then ['\\', '\\']
  else if c = '"' then ['\\', '"']
  else if c = '\n' then ['\\', 'n']
  else if c = '\r' then ['\\', 'r']
  else [c]

/-- A text inside double quotes. -/
def escape (cs : List Char) : List Char := cs.flatMap escapeChar

/-- The character meant by one that stands behind a backslash. -/
def meant (c : Char) : Char :=
  match c with
  | 'n' => '\n'
  | 't' => '\t'
  | 'r' => '\r'
  | c => c

/-- A text with its escapes resolved. A backslash at the end stands for itself. -/
def unescape : List Char → List Char
  | [] => []
  | ['\\'] => ['\\']
  | '\\' :: c :: cs => meant c :: unescape cs
  | c :: cs => c :: unescape cs

theorem unescape_cons {c : Char} (cs : List Char) (h : c ≠ '\\') :
    unescape (c :: cs) = c :: unescape cs := by
  rw [unescape.eq_def]
  split <;> simp_all

/-- A character is escaped by a backslash and a character that means it, or is written as it is. -/
theorem escapeChar_cases (c : Char) : (∃ d, escapeChar c = ['\\', d] ∧ meant d = c) ∨
    escapeChar c = [c] ∧ c ≠ '\\' ∧ c ≠ '"' ∧ c ≠ '\n' ∧ c ≠ '\r' := by
  unfold escapeChar
  split
  · exact .inl ⟨'\\', rfl, by simp_all [meant]⟩
  split
  · exact .inl ⟨'"', rfl, by simp_all [meant]⟩
  split
  · exact .inl ⟨'n', rfl, by simp_all [meant]⟩
  split
  · exact .inl ⟨'r', rfl, by simp_all [meant]⟩
  · exact .inr ⟨rfl, ‹_›, ‹_›, ‹_›, ‹_›⟩

theorem unescape_escapeChar (c : Char) (cs : List Char) :
    unescape (escapeChar c ++ cs) = c :: unescape cs := by
  obtain ⟨d, hescape, rfl⟩ | ⟨hplain, hc, -⟩ := escapeChar_cases c
  · rw [hescape]
    rfl
  · rw [hplain]
    exact unescape_cons cs hc

theorem unescape_escape (cs : List Char) : unescape (escape cs) = cs := by
  induction cs with
  | nil => rfl
  | cons c cs ih =>
    rw [escape, List.flatMap_cons, unescape_escapeChar]
    exact congrArg _ ih

end Quoted

open Quoted

/-- A name in backticks. -/
def quoteName (s : String) : String := String.ofList (mark ['\x60'] (double s.toList))

/-- A text in double quotes, with escapes. -/
def quoteString (s : String) : String := String.ofList (mark ['"'] (escape s.toList))

/-- A text between triples of double quotes, as it is. -/
def quoteRaw (s : String) : String := String.ofList (mark ['"', '"', '"'] s.toList)

/-- The name that is meant by the text of a name, quoted or not. -/
def unquoteName (s : String) : String :=
  match unmark? ['\x60'] s.toList with
  | some cs => String.ofList (undouble cs)
  | none => s

/-- The text that is meant by a string literal. -/
def unquoteString (s : String) : String :=
  match unmark? ['"', '"', '"'] s.toList with
  | some cs => String.ofList cs
  | none => String.ofList (unescape ((unmark? ['"'] s.toList).getD s.toList))

theorem unquoteName_quoteName (s : String) : unquoteName (quoteName s) = s := by
  simp [unquoteName, quoteName, unmark?_mark, undouble_double]

theorem unquoteString_quoteRaw (s : String) : unquoteString (quoteRaw s) = s := by
  simp [unquoteString, quoteRaw, unmark?_mark]

end PipeQuery

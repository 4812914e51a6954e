/-!
# Positions in a text

A position counts the bytes before it, the line it stands on and the characters before it on
that line. Lines end at a line feed only, so a carriage return counts as a character of its
line.

## Main definitions

* `utf8Length`: the number of bytes of a text
* `Position`, `Position.start`: a place in a text and the first place
* `Position.next`, `Position.after`: the place behind a character and behind a text

## Main results

* `Position.after_append`: moving past two texts in turn
* `Position.offset_after`: the offset grows by the bytes moved past
-/

namespace PipeQuery

/-- The number of bytes of a text in UTF-8. -/
def utf8Length : List Char → Nat
  | [] => 0
  | c :: cs => c.utf8Size + utf8Length cs

@[simp]
theorem utf8Length_nil : utf8Length [] = 0 := rfl

@[simp]
theorem utf8Length_cons (c : Char) (cs : List Char) :
    utf8Length (c :: cs) = c.utf8Size + utf8Length cs := rfl

@[simp]
theorem utf8Length_append (cs ds : List Char) :
    utf8Length (cs ++ ds) = utf8Length cs + utf8Length ds := by
  induction cs with
  | nil => simp
  | cons c cs ih => simp [ih, Nat.add_assoc]

/-- A place in a text. Lines and columns count from one, bytes from zero. -/
@[ext]
structure Position where
  /-- The bytes before this place. -/
  offset : Nat
  line : Nat
  /-- One more than the characters before this place on its line. -/
  column : Nat
deriving DecidableEq, Inhabited

namespace Position

/-- The first place of every text. -/
def start : Position := ⟨0, 1, 1⟩

/-- The place behind the character `c`. -/
def next (p : Position) (c : Char) : Position :=
  if c = '\n' then ⟨p.offset + c.utf8Size, p.line + 1, 1⟩
  else ⟨p.offset + c.utf8Size, p.line, p.column + 1⟩

/-- The place behind the text `cs`. -/
def after (p : Position) (cs : List Char) : Position := cs.foldl next p

@[simp]
theorem after_nil (p : Position) : p.after [] = p := rfl

@[simp]
theorem after_cons (p : Position) (c : Char) (cs : List Char) :
    p.after (c :: cs) = (p.next c).after cs := rfl

theorem after_append (p : Position) (cs ds : List Char) :
    p.after (cs ++ ds) = (p.after cs).after ds :=
  List.foldl_append

@[simp]
theorem offset_next (p : Position) (c : Char) : (p.next c).offset = p.offset + c.utf8Size := by
  unfold next; split <;> rfl

theorem offset_after (p : Position) (cs : List Char) :
    (p.after cs).offset = p.offset + utf8Length cs := by
  induction cs generalizing p with
  | nil => simp
  | cons c cs ih => simp [ih, Nat.add_assoc]

end Position

end PipeQuery

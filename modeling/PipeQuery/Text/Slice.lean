import PipeQuery.Text.Position

/-!
# Parts of a text by bytes

A part of a text is given by the bytes where it starts and stops. There is such a part only if
both lie between characters.

## Main definitions

* `dropBytes?`, `takeBytes?`: a text without its first bytes, and these bytes
* `slice?`: the part of a text between two offsets

## Main results

* `dropBytes?_append`, `takeBytes?_append`: cutting at the end of a first part
* `slice?_append`: the middle of three parts
-/

namespace PipeQuery

/-- The text without its first `n` bytes. -/
def dropBytes? : Nat → List Char → Option (List Char)
  | 0, cs => some cs
  | _ + 1, [] => none
  | n + 1, c :: cs => if c.utf8Size ≤ n + 1 then dropBytes? (n + 1 - c.utf8Size) cs else none
termination_by _ cs => cs.length

/-- The first `n` bytes of the text. -/
def takeBytes? : Nat → List Char → Option (List Char)
  | 0, _ => some []
  | _ + 1, [] => none
  | n + 1, c :: cs =>
    if c.utf8Size ≤ n + 1 then (takeBytes? (n + 1 - c.utf8Size) cs).map (c :: ·) else none
termination_by _ cs => cs.length

/-- The part of a text from byte `start` up to byte `stop`. -/
def slice? (cs : List Char) (start stop : Nat) : Option (List Char) :=
  if start ≤ stop then (dropBytes? start cs).bind (takeBytes? (stop - start)) else none

theorem dropBytes?_append (cs ds : List Char) :
    dropBytes? (utf8Length cs) (cs ++ ds) = some ds := by
  induction cs with
  | nil => simp [dropBytes?]
  | cons c cs ih =>
    have hpos := c.utf8Size_pos
    obtain ⟨n, hn⟩ : ∃ n, c.utf8Size + utf8Length cs = n + 1 := ⟨_, (Nat.succ_pred (by omega)).symm⟩
    rw [utf8Length_cons, hn, List.cons_append, dropBytes?, if_pos (by omega), ← hn,
      Nat.add_sub_cancel_left, ih]

theorem takeBytes?_append (cs ds : List Char) :
    takeBytes? (utf8Length cs) (cs ++ ds) = some cs := by
  induction cs with
  | nil => simp [takeBytes?]
  | cons c cs ih =>
    have hpos := c.utf8Size_pos
    obtain ⟨n, hn⟩ : ∃ n, c.utf8Size + utf8Length cs = n + 1 := ⟨_, (Nat.succ_pred (by omega)).symm⟩
    rw [utf8Length_cons, hn, List.cons_append, takeBytes?, if_pos (by omega), ← hn,
      Nat.add_sub_cancel_left, ih]
    rfl

theorem slice?_append (cs ds es : List Char) :
    slice? (cs ++ ds ++ es) (utf8Length cs) (utf8Length cs + utf8Length ds) = some ds := by
  simp [slice?, List.append_assoc, dropBytes?_append, takeBytes?_append]

end PipeQuery

import PipeQuery.Json.Value

/-!
# Moving JSON text to a level

In the indented layout the level of a value shows in its line breaks only, since strings are written
on one line. So a value can be written on its own and be moved to its place.

## Main results

* `Json.reindent_indented`: a value that is moved to a level is written there
-/

namespace PipeQuery.Json

variable {level l : Nat} {s : String}

/-! ## Values on one line -/

/-- A text without a line break stays as it is. -/
theorem reindent_of_oneLine (h : '\n' ∉ s.toList) : reindent level s = s := by
  have hstays (cs : List Char) (hcs : '\n' ∉ cs) :
      (cs.flatMap fun c => if c = '\n' then (lineBreak level).toList else [c]) = cs := by
    induction cs with
    | nil => rfl
    | cons c cs ih =>
      rw [List.mem_cons, not_or] at hcs
      rw [List.flatMap_cons, if_neg (Ne.symm hcs.1), ih hcs.2]
      rfl
  rw [reindent, hstays _ h, String.ofList_toList]

theorem oneLine_escape (c : Char) : '\n' ∉ escape c := by
  unfold escape
  repeat' split
  any_goals decide
  case isTrue =>
    have hdigit (n : Nat) : n.digitChar ≠ '\n' := Nat.digitChar_ne '\n' (by decide)
    simp [escapeDigits, (hdigit _).symm]
  case isFalse hbreak _ _ _ _ _ =>
    rw [List.mem_singleton]
    exact fun h => hbreak h.symm

theorem oneLine_quote (s : String) : '\n' ∉ (quote s).toList := by
  rw [quote, String.toList_ofList]
  simp [oneLine_escape]

theorem toList_pushn (c : Char) (n : Nat) :
    (s.pushn c n).toList = s.toList ++ List.replicate n c := by
  induction n with
  | zero => simp [String.pushn, Nat.repeat]
  | succ n ih =>
    rw [String.pushn] at ih ⊢
    rw [Nat.repeat, String.toList_push, ih, List.replicate_succ', List.append_assoc]

theorem oneLine_toDigits (n : Nat) : '\n' ∉ Nat.toDigits 10 n := by
  intro h
  have hdigit := Nat.isDigit_of_mem_toDigits (by decide) (by decide) h
  cases hdigit

theorem oneLine_numeral (digits : Int) (places : Nat) : '\n' ∉ (numeral digits places).toList := by
  unfold numeral
  rw [String.toList_append, List.mem_append, not_or]
  constructor
  · split <;> decide
  · split
    · simp [oneLine_toDigits]
    · simp [pointed, toList_pushn, oneLine_toDigits]

/-! ## Values over several lines -/

theorem reindent_append (a b : String) :
    reindent level (a ++ b) = reindent level a ++ reindent level b := by
  simp [reindent]

theorem reindent_lineBreak : reindent level (lineBreak l) = lineBreak (level + l) := by
  have hspaces : reindent level ("".pushn ' ' (2 * l)) = "".pushn ' ' (2 * l) :=
    reindent_of_oneLine (by simp [toList_pushn])
  have hbreak : reindent level "\n" = lineBreak level := by
    simp [reindent]
  rw [lineBreak, reindent_append, hspaces, hbreak, lineBreak, lineBreak, String.append_assoc]
  congr 1
  apply String.ext
  simp [toList_pushn, Nat.mul_add]

mutual

/-- **A value that is moved to a level is written there.** -/
theorem reindent_indented (level l : Nat) :
    ∀ j : Json, reindent level (j.indented l) = j.indented (level + l)
  | null => by
    simp only [indented]
    exact reindent_of_oneLine (by decide)
  | bool b => by
    simp only [indented]
    exact reindent_of_oneLine (by cases b <;> decide)
  | number digits places => by
    simp only [indented]
    exact reindent_of_oneLine (oneLine_numeral digits places)
  | string s => by
    simp only [indented]
    exact reindent_of_oneLine (oneLine_quote s)
  | array [] => by
    simp only [indented]
    exact reindent_of_oneLine (by decide)
  | array (j :: rest) => by
    simp only [indented, reindent_append, reindent_lineBreak,
      reindent_indentedItems level l (j :: rest)]
    rw [reindent_of_oneLine (by decide), reindent_of_oneLine (by decide)]
  | object [] => by
    simp only [indented]
    exact reindent_of_oneLine (by decide)
  | object (f :: rest) => by
    simp only [indented, reindent_append, reindent_lineBreak,
      reindent_indentedFields level l (f :: rest)]
    rw [reindent_of_oneLine (by decide), reindent_of_oneLine (by decide)]

theorem reindent_indentedItems (level l : Nat) :
    ∀ js : List Json, reindent level (indentedItems l js) = indentedItems (level + l) js
  | [] => by
    simp only [indentedItems]
    exact reindent_of_oneLine (by decide)
  | [j] => by
    simp only [indentedItems, reindent_append, reindent_lineBreak,
      reindent_indented level (l + 1) j, Nat.add_assoc]
  | j :: k :: rest => by
    simp only [indentedItems, reindent_append, reindent_lineBreak,
      reindent_indented level (l + 1) j, reindent_indentedItems level l (k :: rest), Nat.add_assoc]
    rw [reindent_of_oneLine (by decide)]

theorem reindent_indentedFields (level l : Nat) :
    ∀ fs : List (String × Json),
      reindent level (indentedFields l fs) = indentedFields (level + l) fs
  | [] => by
    simp only [indentedFields]
    exact reindent_of_oneLine (by decide)
  | [(key, j)] => by
    simp only [indentedFields, reindent_append, reindent_lineBreak,
      reindent_indented level (l + 1) j, reindent_of_oneLine (oneLine_quote key), Nat.add_assoc]
    rw [reindent_of_oneLine (by decide)]
  | (key, j) :: f :: rest => by
    simp only [indentedFields, reindent_append, reindent_lineBreak,
      reindent_indented level (l + 1) j, reindent_of_oneLine (oneLine_quote key),
      reindent_indentedFields level l (f :: rest), Nat.add_assoc]
    rw [reindent_of_oneLine (by decide), reindent_of_oneLine (by decide)]

end

end PipeQuery.Json

import PipeQuery.Proofs.Lexer.Layout
import PipeQuery.Text.Caret

/-!
# Lines and carets

A place counts the line feeds before it and the characters behind the last of them, carriage returns
among them, while the lines of a text are listed without the carriage returns at their ends. The two
agree wherever a character other than these two stands: it stands in the line with the number of the
place, at its column.

## Main definitions

* `PointsAt`: a caret below a character of a source

## Main results

* `getElem?_linesFrom`: the line of a character
* `exists_pointsAt`: the caret at the place of a character points at it
-/

namespace PipeQuery

variable {c : Char} {before after current cs : List Char}

/-! ## The line of a character -/

theorem linesFrom_cons (current : List Char) (c : Char) (cs : List Char) :
    linesFrom current (c :: cs) =
      if c = '\n' then (dropReturn current).reverse :: linesFrom [] cs
      else linesFrom (c :: current) cs := by
  cases current <;> rfl

/-- At the end of a line nothing is dropped but a carriage return. -/
theorem dropReturn_append (hc : c ≠ '\r') (current more : List Char) :
    ∃ more', dropReturn (more ++ c :: current) = more' ++ c :: current := by
  cases more with
  | nil =>
    refine ⟨[], ?_⟩
    unfold dropReturn
    split
    · rename_i heq
      exact absurd (List.cons.inj heq).1 hc
    · rfl
  | cons d more =>
    unfold dropReturn
    split
    · rename_i heq
      exact ⟨more, (List.cons.inj heq).2.symm⟩
    · exact ⟨d :: more, rfl⟩

/-- A character that is no carriage return stays in the current line, with what is before it. -/
theorem head_linesFrom (hc : c ≠ '\r') (current more cs : List Char) :
    ∃ tail, (linesFrom (more ++ c :: current) cs)[0]? = some (current.reverse ++ c :: tail) := by
  induction cs generalizing more with
  | nil =>
    refine ⟨more.reverse, ?_⟩
    cases more <;> simp [linesFrom]
  | cons d cs ih =>
    rw [linesFrom_cons]
    split
    · obtain ⟨more', hdrop⟩ := dropReturn_append hc current more
      exact ⟨more'.reverse, by simp [hdrop]⟩
    · exact ih (d :: more)

theorem takeWhile_line (cs ds : List Char) :
    (cs ++ '\n' :: ds).takeWhile (· ≠ '\n') = cs.takeWhile (· ≠ '\n') := by
  induction cs with
  | nil => rfl
  | cons c cs ih => rw [List.cons_append, List.takeWhile_cons, List.takeWhile_cons, ih]

/-- **The line of a character.** Its number is that of the line feeds before the character, and it
starts with what stands behind the last of them. -/
theorem getElem?_linesFrom (hline : c ≠ '\n') (hreturn : c ≠ '\r') (hcurrent : '\n' ∉ current)
    (before after : List Char) :
    ∃ tail, (linesFrom current (before ++ c :: after))[before.count '\n']? =
      some (((before.reverse ++ current).takeWhile (· ≠ '\n')).reverse ++ c :: tail) := by
  induction before generalizing current with
  | nil =>
    have hall : current.takeWhile (· ≠ '\n') = current := by
      rw [List.takeWhile_eq_self_iff]
      intro d hd
      exact decide_eq_true fun heq => hcurrent (heq ▸ hd)
    rw [List.nil_append, linesFrom_cons, if_neg hline, List.reverse_nil, List.nil_append, hall]
    exact head_linesFrom hreturn current [] after
  | cons d before ih =>
    rw [List.cons_append, linesFrom_cons]
    split
    · rename_i hd
      subst hd
      -- The line that ends here, with what was before it, is not the one of the character.
      have hstop : (('\n' :: before).reverse ++ current).takeWhile (· ≠ '\n') =
          (before.reverse ++ []).takeWhile (· ≠ '\n') := by
        rw [List.reverse_cons, List.append_assoc, List.singleton_append, List.append_nil]
        exact takeWhile_line before.reverse current
      rw [hstop, List.count_cons_self, List.getElem?_cons_succ]
      exact ih List.not_mem_nil
    · rename_i hd
      have hcurrent' : '\n' ∉ d :: current := by
        rw [List.mem_cons, not_or]
        exact ⟨Ne.symm hd, hcurrent⟩
      rw [List.count_cons_of_ne hd, List.reverse_cons, List.append_assoc]
      exact ih hcurrent'

/-- No line has a line feed. -/
theorem forall_linesFrom (hcurrent : '\n' ∉ current) :
    ∀ line ∈ linesFrom current cs, '\n' ∉ line := by
  induction cs generalizing current with
  | nil =>
    cases current with
    | nil => exact List.forall_mem_nil _
    | cons d current =>
      rw [linesFrom, List.forall_mem_singleton, List.mem_reverse]
      · exact hcurrent
      · simp
  | cons d cs ih =>
    rw [linesFrom_cons]
    split
    · refine List.forall_mem_cons.mpr ⟨?_, ih List.not_mem_nil⟩
      -- What is dropped from the end of a line cannot bring a line feed in.
      have hsub : dropReturn current ⊆ current := by
        unfold dropReturn
        split
        · exact List.subset_cons_self _ _
        · exact List.Subset.refl _
      rw [List.mem_reverse]
      exact fun hmem => hcurrent (hsub hmem)
    · rename_i hd
      refine ih ?_
      rw [List.mem_cons, not_or]
      exact ⟨Ne.symm hd, hcurrent⟩

/-! ## The caret below a character -/

/-- The caret for a line and a column stands below the character `c` of a source, which stands
behind `offset` bytes: the line is `text`, the character stands in it at the column, and the caret
behind the characters `pad`, as many as stand before the character. They are blank, with tabs where
the line has tabs. -/
structure PointsAt (source : String) (line column offset : Nat) (c : Char)
    (text pad : List Char) : Prop where
  caret_eq : caret? source line column = some (String.ofList (text ++ '\n' :: pad ++ ['^']))
  unbroken : '\n' ∉ text
  column_pos : 1 ≤ column
  char_eq : text[column - 1]? = some c
  pad_length : pad.length = column - 1
  pad_eq : ∀ i < column - 1, pad[i]? = text[i]?.map fun d => if d = '\t' then '\t' else ' '
  source_eq : ∃ before after, source.toList = before ++ c :: after ∧ utf8Length before = offset

/-- **The caret at the place of a character points at it**, unless it ends a line. -/
theorem exists_pointsAt {source : String} (hsource : source.toList = before ++ c :: after)
    (hline : c ≠ '\n') (hreturn : c ≠ '\r') :
    let p := Position.start.after before
    ∃ c text pad, PointsAt source p.line p.column p.offset c text pad := by
  intro p
  obtain ⟨tail, htext⟩ := getElem?_linesFrom hline hreturn List.not_mem_nil before after
  rw [List.append_nil] at htext
  -- The line has what stands behind the last line feed, the character, and what is left of it.
  set start := (before.reverse.takeWhile (· ≠ '\n')).reverse with hstart
  have hlines : (lines source.toList)[p.line - 1]? = some (start ++ c :: tail) := by
    rw [Position.line_after, Nat.add_sub_cancel_left, hsource]
    exact htext
  have hcolumn : p.column = start.length + 1 := by
    rw [Position.column_after, hstart, List.length_reverse, Nat.add_comm]
  refine ⟨c, start ++ c :: tail, caretPad (start ++ c :: tail) p.column, ?_⟩
  constructor
  case caret_eq =>
    have hpos : p.line ≠ 0 := by
      rw [Position.line_after]
      omega
    rw [caret?, if_neg hpos, hlines]
    rfl
  case unbroken => exact forall_linesFrom List.not_mem_nil _ (List.mem_of_getElem? hlines)
  case column_pos => omega
  case char_eq => simp [hcolumn]
  case pad_length => simp [caretPad, hcolumn]
  case pad_eq =>
    intro i hi
    rw [caretPad, List.getElem?_map, List.getElem?_take_of_lt hi]
  case source_eq => exact ⟨before, after, hsource, (Position.offset_start_after before).symm⟩

end PipeQuery

import Mathlib.Data.List.TakeWhile
import PipeQuery.Proofs.Lexer.Layout

/-!
# Where the recognisers cut

What a recogniser takes from a text is told by its first characters, or ends with a mark. So it is
known what each of them does on a text that is put together from what it takes and something else.

## Main definitions

* `Lexer.Lexeme.before`: a lexeme in front of another text
* `Lexer.IsExponentHead`: how an exponent starts

## Main results

* `Lexer.takeRun1_eq_some_iff`, `Lexer.takeRun1_eq_none_iff`: what is taken as a run
* `Lexer.takeThrough_stable`, `Lexer.stringTail_stable`, `Lexer.tripleQuoted_stable`: what ends with
  a mark is taken again, whatever stands behind it
* `Lexer.exponent_eq`, `Lexer.exponent_inv`: where an exponent is found, and what it is made of
* `Lexer.number_eq_none_iff`, `Lexer.lineComment_eq_none_iff`, ...: where none of a class is found
-/

namespace PipeQuery.Lexer

variable {cs ds rest rest' : List Char} {cut : Cut} {p : Char → Bool} {l : Lexeme}

/-- The lexeme, with another text behind it. -/
def Lexeme.before (l : Lexeme) (rest : List Char) : Lexeme := ⟨l.kind, l.text, rest⟩

/-! ## Runs -/

theorem takeRun_append_eq (hcs : ∀ c ∈ cs, p c = true) (hrest : ∀ c ∈ rest.head?, p c = false) :
    takeRun p (cs ++ rest) = (cs, rest) := by
  have hstop : rest.takeWhile p = [] ∧ rest.dropWhile p = rest := by
    cases rest with
    | nil => exact ⟨rfl, rfl⟩
    | cons c rest => simp [hrest c rfl]
  rw [takeRun, List.takeWhile_append_of_pos hcs, List.dropWhile_append_of_pos hcs, hstop.1, hstop.2,
    List.append_nil]

theorem forall_takeRun (p : Char → Bool) (cs : List Char) :
    (∀ c ∈ (takeRun p cs).1, p c = true) ∧ ∀ c ∈ (takeRun p cs).2.head?, p c = false := by
  refine ⟨fun c hc => List.mem_takeWhile_imp hc, fun c hc => ?_⟩
  have hstop := List.head?_dropWhile_not p cs
  have hdrop : (cs.dropWhile p).head? = some c := hc
  rwa [hdrop] at hstop

theorem takeRun1_eq_some_iff : takeRun1 p cs = some (ds, rest) ↔
    cs = ds ++ rest ∧ ds ≠ [] ∧ (∀ c ∈ ds, p c = true) ∧ ∀ c ∈ rest.head?, p c = false := by
  constructor
  · intro h
    obtain ⟨happend, hne⟩ := takeRun1_append h
    unfold takeRun1 at h
    split at h
    · cases h
    · have heq := Option.some.inj h
      obtain ⟨hall, hstop⟩ := forall_takeRun p cs
      rw [heq] at hall hstop
      exact ⟨happend.symm, hne, hall, hstop⟩
  · rintro ⟨rfl, hne, hall, hstop⟩
    have hrun := takeRun_append_eq hall hstop
    have htake : (ds ++ rest).takeWhile p = ds := congrArg Prod.fst hrun
    rw [takeRun1, htake, hrun, if_neg (by simpa using hne)]

theorem takeRun1_eq_none_iff : takeRun1 p cs = none ↔ ∀ c ∈ cs.head?, p c = false := by
  cases cs with
  | nil => simp [takeRun1]
  | cons c cs => cases h : p c <;> simp [takeRun1, h]

/-- A run is taken again where none of its characters stands behind it. -/
theorem takeRun1_stable (h : takeRun1 p cs = some cut) (hrest : ∀ c ∈ rest'.head?, p c = false) :
    takeRun1 p (cut.1 ++ rest') = some (cut.1, rest') := by
  obtain ⟨-, hne, hall, -⟩ := takeRun1_eq_some_iff.mp h
  exact takeRun1_eq_some_iff.mpr ⟨rfl, hne, hall, hrest⟩

/-- What is taken through a mark does not depend on what stands behind the mark. -/
theorem takeThrough_stable {mark : List Char} (hmark : mark ≠ [])
    (h : takeThrough mark cs = some cut) (rest' : List Char) :
    takeThrough mark (cut.1 ++ rest') = some (cut.1, rest') := by
  induction cs generalizing cut with
  | nil =>
    rw [takeThrough, if_neg (by simpa using hmark)] at h
    cases h
  | cons c cs ih =>
    rw [takeThrough] at h
    split at h
    · cases h
      obtain ⟨d, mark, rfl⟩ := List.exists_cons_of_ne_nil hmark
      rw [List.cons_append, takeThrough, if_pos (by simp)]
      simp
    · rename_i hprefix
      obtain ⟨inner, hinner, rfl⟩ := Option.map_eq_some_iff.mp h
      have hnot : ¬ mark.isPrefixOf (c :: (inner.1 ++ rest')) = true := by
        rw [List.isPrefixOf_iff_prefix] at hprefix ⊢
        intro hp
        -- The mark ends what is taken, so it does not reach what stands behind.
        obtain ⟨body, hbody, -⟩ := takeThrough_eq hmark hinner
        have hshort : mark <+: c :: inner.1 :=
          List.prefix_of_prefix_length_le hp ⟨rest', rfl⟩ (by simp [hbody]; omega)
        refine hprefix (hshort.trans ⟨inner.2, ?_⟩)
        rw [List.cons_append, takeThrough_append hinner]
      show takeThrough mark (c :: (inner.1 ++ rest')) = _
      rw [takeThrough, if_neg hnot, ih hinner]
      rfl

/-! ## Strings and names -/

theorem stringTail_cons {c : Char} (hquote : c ≠ '"') (hescape : c ≠ '\\')
    (hline : c ≠ '\r' ∧ c ≠ '\n') :
    stringTail (c :: cs) = (stringTail cs).map (Cut.behind [c]) := by
  rw [stringTail.eq_def]
  split <;> simp_all

/-- A string ends at its closing quote, whatever stands behind it. -/
theorem stringTail_stable (h : stringTail cs = some cut) (rest' : List Char) :
    stringTail (cut.1 ++ rest') = some (cut.1, rest') := by
  fun_induction stringTail cs generalizing cut with
  | case1 => cases h
  | case2 cs => cases h; rfl
  | case3 c cs ih =>
    obtain ⟨inner, hi, rfl⟩ := Option.map_eq_some_iff.mp h
    simp [Cut.behind, stringTail, ih hi]
  | case4 => cases h
  | case5 c cs hquote _ hc ih =>
    obtain ⟨inner, hi, rfl⟩ := Option.map_eq_some_iff.mp h
    simp only [Bool.or_eq_true, decide_eq_true_eq, not_or] at hc
    show stringTail (c :: (inner.1 ++ rest')) = _
    rw [stringTail_cons hquote hc.1.1 ⟨hc.1.2, hc.2⟩, ih hi]
    rfl

theorem tripleQuoted_stable (h : tripleQuoted cs = some cut) (rest' : List Char) :
    tripleQuoted (cut.1 ++ rest') = some (cut.1, rest') := by
  unfold tripleQuoted at h
  split at h
  · obtain ⟨inner, hi, rfl⟩ := Option.map_eq_some_iff.mp h
    simp [Cut.behind, tripleQuoted, takeThrough_stable (by simp) hi rest']
  · cases h

theorem doubleQuoted_stable (h : doubleQuoted cs = some cut) (rest' : List Char) :
    doubleQuoted (cut.1 ++ rest') = some (cut.1, rest') := by
  unfold doubleQuoted at h
  split at h
  · obtain ⟨inner, hi, rfl⟩ := Option.map_eq_some_iff.mp h
    simp [Cut.behind, doubleQuoted, stringTail_stable hi rest']
  · cases h

/-- Only the empty string has two quotes at its start. -/
theorem doubleQuoted_starts (h : doubleQuoted cs = some cut) (hm : ['"', '"'] <+: cut.1) :
    cut.1 = ['"', '"'] := by
  unfold doubleQuoted at h
  split at h
  · obtain ⟨inner, hi, rfl⟩ := Option.map_eq_some_iff.mp h
    have hinner : ['"'] <+: inner.1 := by simpa [Cut.behind] using hm
    obtain ⟨tail, htail⟩ := hinner
    have hstable := stringTail_stable hi []
    rw [← htail] at hstable
    obtain ⟨rfl, -⟩ : tail = [] ∧ True := by simpa [stringTail] using hstable
    simp [Cut.behind, ← htail]
  · cases h

theorem tripleQuoted_starts (h : tripleQuoted cs = some cut) : ['"', '"', '"'] <+: cs := by
  unfold tripleQuoted at h
  split at h
  · simp
  · cases h

/-- A text that does not start with a string in triple quotes does not do so when it is cut off. -/
theorem tripleQuoted_cutOff (h : tripleQuoted cs = none) (hp : ds <+: cs) :
    tripleQuoted ds = none := by
  by_contra hds
  obtain ⟨cut, hcut⟩ := Option.ne_none_iff_exists'.mp hds
  obtain ⟨tail, rfl⟩ := hp
  have hliteral : stringLiteral ds = some cut := by rw [stringLiteral, hcut, Option.some_or]
  have hstable := tripleQuoted_stable hcut (cut.2 ++ tail)
  rw [← List.append_assoc, (stringLiteral_append hliteral).1, h] at hstable
  cases hstable

theorem quotedNameTail_cons {c : Char} (hc : c ≠ '\x60') :
    quotedNameTail (c :: cs) = (quotedNameTail cs).map (Cut.behind [c]) := by
  rw [quotedNameTail.eq_def]
  split <;> simp_all

/-- A backtick closes a name if no other one follows it. -/
theorem quotedNameTail_close (h : ∀ c ∈ cs.head?, (c == '\x60') = false) :
    quotedNameTail ('\x60' :: cs) = some (['\x60'], cs) := by
  rw [quotedNameTail.eq_def]
  split
  · simp_all
  · simp_all
  · rename_i heq
    obtain ⟨rfl, rfl⟩ := List.cons.inj heq
    rw [if_pos rfl]

/-! ## Numbers -/

/-- How an exponent starts: its letter and its sign, if it has one. -/
def IsExponentHead (c : Char) (sign : List Char) : Prop :=
  (c = 'e' ∨ c = 'E') ∧ (sign = [] ∨ sign = ['+'] ∨ sign = ['-'])

theorem exponentSign_cases (cs : List Char) :
    (exponentSign cs).1 = [] ∨ (exponentSign cs).1 = ['+'] ∨ (exponentSign cs).1 = ['-'] := by
  unfold exponentSign
  split <;> simp

/-- Behind its head, an exponent goes on with the digits that stand there. -/
theorem exponent_eq {c d : Char} {sign : List Char} (hhead : IsExponentHead c sign)
    (hd : d.isDigit = true) : exponent (c :: (sign ++ d :: cs)) =
      (digits (d :: cs)).map (Cut.behind (c :: sign)) := by
  obtain ⟨hc, hsign⟩ := hhead
  have hexponentSign : exponentSign (sign ++ d :: cs) = (sign, d :: cs) := by
    rcases hsign with rfl | rfl | rfl
    · have hplus : d ≠ '+' := by rintro rfl; cases hd
      have hminus : d ≠ '-' := by rintro rfl; cases hd
      rw [List.nil_append, exponentSign.eq_def]
      split <;> simp_all
    · rfl
    · rfl
  rw [exponent, if_pos (by simpa using hc), hexponentSign]

theorem exponent_inv (h : exponent cs = some cut) : ∃ c sign d ds, IsExponentHead c sign ∧
    d.isDigit = true ∧ cut.1 = c :: (sign ++ d :: ds) ∧
      digits (d :: ds ++ cut.2) = some (d :: ds, cut.2) := by
  unfold exponent at h
  split at h
  · cases h
  · rename_i c cs
    split at h
    · rename_i hc
      obtain ⟨inner, hinner, rfl⟩ := Option.map_eq_some_iff.mp h
      obtain ⟨happend, hne, hall, -⟩ := takeRun1_eq_some_iff.mp hinner
      rw [happend] at hinner
      obtain ⟨d, ds, hds⟩ := List.exists_cons_of_ne_nil hne
      refine ⟨c, (exponentSign cs).1, d, ds, ⟨by simpa using hc, exponentSign_cases cs⟩, ?_, ?_, ?_⟩
      · exact hall d (by simp [hds])
      · simp [Cut.behind, hds]
      · rw [← hds]
        exact hinner
    · cases h

theorem optional_eq_of_some {part : List Char → Option Cut} (h : part cs = some cut) :
    optional part cs = cut := by
  rw [optional, h, Option.getD_some]

theorem optional_eq_of_none {part : List Char → Option Cut} (h : part cs = none) :
    optional part cs = ([], cs) := by
  rw [optional, h, Option.getD_none]

theorem optional_digits_stable (cs : List Char) (hrest : ∀ c ∈ rest'.head?, c.isDigit = false) :
    optional digits ((optional digits cs).1 ++ rest') = ((optional digits cs).1, rest') := by
  cases h : digits cs with
  | some cut =>
    rw [optional_eq_of_some h]
    exact optional_eq_of_some (takeRun1_stable h hrest)
  | none =>
    rw [optional_eq_of_none h]
    exact optional_eq_of_none (takeRun1_eq_none_iff.mpr hrest)

/-- No digit stands behind the digits that are taken. -/
theorem optional_digits_stop (cs : List Char) :
    ∀ c ∈ (optional digits cs).2.head?, c.isDigit = false := by
  cases h : digits cs with
  | some cut =>
    rw [optional_eq_of_some h]
    exact (takeRun1_eq_some_iff.mp h).2.2.2
  | none =>
    rw [optional_eq_of_none h]
    exact takeRun1_eq_none_iff.mp h

theorem numberAfter_point (ds cs : List Char) :
    numberAfter ds ('.' :: cs) = (Cut.behind (ds ++ ['.']) (fraction cs)).lexeme .decimal := rfl

theorem numberAfter_of_ne (ds : List Char) (hpoint : ∀ c ∈ cs.head?, (c == '.') = false) :
    numberAfter ds cs = match exponent cs with
      | some cut => (cut.behind ds).lexeme .decimal
      | none => ⟨.integer, ds, cs⟩ := by
  rw [numberAfter.eq_def]
  split
  · cases hpoint '.' rfl
  · rfl

/-! ## Marks and words -/

theorem commandMark_stable (h : commandMark cs = some l) (rest' : List Char) :
    commandMark (l.text ++ rest') = some (l.before rest') := by
  unfold commandMark at h
  split at h <;> cases h <;> rfl

theorem sourceMark_stable (h : sourceMark cs = some l) (rest' : List Char) :
    sourceMark (l.text ++ rest') = some (l.before rest') := by
  unfold sourceMark at h
  split at h <;> cases h <;> rfl

theorem commandMark_eq_none_iff :
    commandMark cs = none ↔ ∀ c ∈ cs.head?, c ≠ '|' ∧ c ≠ '[' ∧ c ≠ ']' := by
  unfold commandMark
  split <;> simp_all
  cases cs <;> simp_all

theorem sourceMark_eq_none_iff : sourceMark cs = none ↔
    ∀ c ∈ cs.head?, c ≠ ',' ∧ c ≠ '=' ∧ c ≠ '|' ∧ c ≠ '[' ∧ c ≠ ']' := by
  unfold sourceMark
  split <;> simp_all
  cases cs <;> simp_all

theorem number_eq_none_iff : number cs = none ↔ ∀ c ∈ cs.head?, c.isDigit = false := by
  rw [number, Option.map_eq_none_iff, digits, takeRun1_eq_none_iff]

theorem expressionWord_eq_none_iff :
    expressionWord cs = none ↔ ∀ c ∈ cs.head?, isNameStart c = false := by
  cases cs <;> simp [expressionWord, identifier]

/-! ## Gaps -/

theorem lineComment_eq_none_iff : lineComment cs = none ↔ ¬ ['/', '/'] <+: cs := by
  unfold lineComment
  split
  · simp
  · rename_i hne
    refine iff_of_true rfl ?_
    rintro ⟨tail, rfl⟩
    exact hne tail rfl

theorem opensComment_eq_false_iff : opensComment cs = false ↔ ¬ ['/', '*'] <+: cs := by
  unfold opensComment
  split
  · simp
  · rename_i hne
    refine iff_of_true rfl ?_
    rintro ⟨tail, rfl⟩
    exact hne tail rfl

theorem blockComment_eq_none (h : ¬ ['/', '*'] <+: cs) : blockComment cs = none := by
  unfold blockComment
  split
  · exact absurd ⟨_, rfl⟩ h
  · rfl

theorem blockComment_stable (h : blockComment cs = some cut) (rest' : List Char) :
    blockComment (cut.1 ++ rest') = some (cut.1, rest') := by
  unfold blockComment at h
  split at h
  · obtain ⟨inner, hinner, rfl⟩ := Option.map_eq_some_iff.mp h
    simp [Cut.behind, blockComment, takeThrough_stable (by simp) hinner rest']
  · cases h

theorem triviaPiece_trivia (cs : List Char) : triviaPiece (trivia cs).2 = none := by
  induction cs using trivia.induct with
  | case1 cs piece rest h ih =>
    rw [trivia_of_piece h]
    exact ih
  | case2 cs h =>
    rw [trivia_of_none h]
    exact h

theorem triviaPiece_of_trivia {gap : List Char} (hgap : trivia cs = (gap, rest)) :
    triviaPiece rest = none := by
  have hpiece := triviaPiece_trivia cs
  rwa [hgap] at hpiece

end PipeQuery.Lexer

import PipeQuery.Proofs.Lexer.Layout

/-!
# Parts of a source

The tokens of a source from one of them up to another stand in one part of it, which is made up of
their texts with gaps between them. What stands behind a gap decides only whether a line comment at
its end has ended, so a gap is one too where the part is cut off behind its last token.

## Main definitions

* `Lexer.Spread`: a text made up of the texts of tokens with gaps between them

## Main results

* `Lexer.LaidOut.spread`: where some tokens of a text stand
* `Lexer.Spread.kept_eq`: what is left of a part without its gaps
* `exists_eq_append_of_le`: first parts of a text by bytes
-/

namespace PipeQuery

/-! ## Parts by bytes -/

variable {cs front front' rest rest' : List Char}

/-- Of two first parts of a text, the one with no more bytes is a first part of the other. -/
theorem exists_eq_append_of_le (h : front ++ rest = front' ++ rest')
    (hle : utf8Length front ≤ utf8Length front') :
    ∃ between, front' = front ++ between ∧ rest = between ++ rest' := by
  rcases List.append_eq_append_iff.mp h with ⟨between, rfl, rfl⟩ | ⟨between, rfl, rfl⟩
  · exact ⟨between, rfl, rfl⟩
  · -- The two parts are the same.
    have hnil : between = [] := by
      cases between with
      | nil => rfl
      | cons c between =>
        have hpos := c.utf8Size_pos
        rw [utf8Length_append, utf8Length_cons] at hle
        omega
    subst hnil
    exact ⟨[], by simp, rfl⟩

namespace Lexer

variable {before behind behind' gap text kept : List Char} {t : Token} {ts past tokens : List Token}

/-! ## Gaps -/

/-- Of what stands behind a gap only the first character matters. -/
theorem Gap.congr (h : Gap behind gap) (hhead : behind.head? = behind'.head?) :
    Gap behind' gap := by
  induction h with
  | nil => exact .nil
  | blank hc _ ih => exact .blank hc ih
  | line hc hend _ ih =>
    refine .line hc ?_ ih
    rw [List.head?_append, ← hhead, ← List.head?_append]
    exact hend
  | block hc _ ih => exact .block hc ih

/-! ## Texts of tokens with gaps between them -/

/-- A text made up of the texts of tokens, with a gap between each two of them. Without the gaps,
`kept` is left of it. -/
inductive Spread : List Token → List Char → List Char → Prop
  | last (t : Token) : Spread [t] t.text.toList t.text.toList
  | token {t : Token} {ts : List Token} {gap text kept : List Char} (hgap : Gap text gap)
    (h : Spread ts text kept) :
    Spread (t :: ts) (t.text.toList ++ gap ++ text) (t.text.toList ++ kept)

/-- **Without its gaps, a text is the texts of its tokens.** -/
theorem Spread.kept_eq (h : Spread ts text kept) :
    kept = (String.join (ts.map Token.text)).toList := by
  rw [String.toList_join, List.flatMap_map]
  induction h with
  | last t => simp
  | token _ _ ih => rw [List.flatMap_cons, ih]

/-- Behind the first tokens of a text, the rest of it is laid out as the others. -/
theorem LaidOut.drop (h : LaidOut before cs (past ++ ts)) (hne : ts ≠ []) :
    ∃ front rest, cs = front ++ rest ∧ LaidOut (before ++ front) rest ts := by
  induction past generalizing before cs with
  | nil => exact ⟨[], cs, rfl, by rwa [List.append_nil]⟩
  | cons t past ih =>
    rw [List.cons_append] at h
    generalize htokens : past ++ ts = tokens at h
    cases h with
    | last =>
      exact absurd (List.append_eq_nil_iff.mp htokens).2 hne
    | @token before gap rest t tokens _ _ _ _ hr =>
      subst htokens
      obtain ⟨front, rest', rfl, hlaid⟩ := ih hr
      refine ⟨gap ++ t.text.toList ++ front, rest', by simp, ?_⟩
      simpa using hlaid

/-- **Where the first tokens of a text stand**: behind a gap, with gaps between them. -/
theorem LaidOut.take (h : LaidOut before cs (ts ++ past)) (hne : ts ≠ []) (hpast : past ≠ []) :
    ∃ gap text rest kept, cs = gap ++ text ++ rest ∧ Gap text gap ∧ Spread ts text kept ∧
      (∀ t ∈ ts.head?, t.span.start = utf8Length (before ++ gap)) ∧
      ∀ t ∈ ts.getLast?, t.span.stop = utf8Length (before ++ gap ++ text) := by
  induction ts generalizing before cs with
  | nil => exact absurd rfl hne
  | cons t ts ih =>
    rw [List.cons_append] at h
    generalize htokens : ts ++ past = tokens at h
    cases h with
    | last => exact absurd (List.append_eq_nil_iff.mp htokens).2 hpast
    | @token before gap rest t tokens hgap _ htext hs hr =>
      subst htokens
      -- The text of the token is not empty, so the gap is one in front of any text that starts so.
      have hhead (more : List Char) :
          (t.text.toList ++ rest).head? = (t.text.toList ++ more).head? := by
        obtain ⟨c, tail, hcons⟩ := List.exists_cons_of_ne_nil htext
        rw [hcons]
        rfl
      have hstart : t.span.start = utf8Length (before ++ gap) := hs.start_eq
      by_cases hnil : ts = []
      · subst hnil
        refine ⟨gap, t.text.toList, rest, _, rfl, ?_, .last t, ?_, ?_⟩
        · have hgap' := hgap.congr (hhead [])
          rwa [List.append_nil] at hgap'
        · rintro _ ⟨⟩
          exact hstart
        · intro t' ht'
          obtain rfl : t = t' := Option.some.inj ht'
          rw [hs.stop_eq, utf8Length_append _ t.text.toList]
      · obtain ⟨gap', text, rest', kept, rfl, hgap', hspread, -, hlast⟩ := ih hr hnil
        refine ⟨gap, t.text.toList ++ gap' ++ text, rest', _, by simp, ?_, .token hgap' hspread,
          ?_, ?_⟩
        · rw [List.append_assoc]
          exact hgap.congr (hhead _)
        · rintro _ ⟨⟩
          exact hstart
        · rw [List.getLast?_cons_of_ne_nil hnil]
          intro t' ht'
          rw [hlast t' ht']
          simp

/-- **Where some tokens of a text stand.** -/
theorem LaidOut.spread {more : List Token} (h : LaidOut before cs (past ++ ts ++ more))
    (hne : ts ≠ []) (hmore : more ≠ []) :
    ∃ front text rest kept, cs = front ++ text ++ rest ∧ Spread ts text kept ∧
      (∀ t ∈ ts.head?, t.span.start = utf8Length (before ++ front)) ∧
      ∀ t ∈ ts.getLast?, t.span.stop = utf8Length (before ++ front ++ text) := by
  rw [List.append_assoc] at h
  obtain ⟨front, behind, rfl, hlaid⟩ := h.drop (by simp [hne])
  obtain ⟨gap, text, rest, kept, rfl, -, hspread, hfirst, hlast⟩ := hlaid.take hne hmore
  refine ⟨front ++ gap, text, rest, kept, by simp, hspread, ?_, ?_⟩
  · simpa using hfirst
  · simpa using hlast

end Lexer

end PipeQuery

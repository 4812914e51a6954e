import PipeQuery.Proofs.Lexer.Layout
import PipeQuery.Proofs.Lexer.Stability

/-!
# Sources with single blanks

What stands between two tokens, blanks or comments or nothing at all, does not matter. When the
texts of the tokens of a source are written down with a single space between them, or another
character that separates tokens, they are read again as tokens of the same kinds and texts, and the
same modes are in force on the way.

## Main definitions

* `Lexer.words`: the tokens without the end of the input
* `Lexer.behindEach`: the texts of tokens, each behind a character
* `Lexer.spaced`: the texts of the words among tokens, with single spaces between them
* `Lexer.SameWords`: tokens of the same kinds and texts

## Main results

* `Lexer.tokensFrom_layout`: a layout character in front of a text is skipped
* `Lexer.tokensFrom_replaced`: a token is read again when nothing stands before it and another text
  behind it
* `Lexer.tokensFrom_parted`, `Lexer.tokensFrom_spaced`: tokens are read again from their texts
-/

namespace PipeQuery

namespace Lexer

variable {cs rest rest' : List Char} {modes : Modes} {p : Position} {ts : List Token} {c : Char}

/-! ## Layout -/

/-- The layout at the start of a text is skipped, and then what is skipped behind it. -/
theorem trivia_eq_behind (cs : List Char) :
    trivia cs = (trivia (cs.dropWhile isLayout)).behind (cs.takeWhile isLayout) := by
  by_cases hempty : cs.takeWhile isLayout = []
  · have hdrop : cs.dropWhile isLayout = cs := by
      simpa [hempty] using List.takeWhile_append_dropWhile (p := isLayout) (l := cs)
    rw [hempty, hdrop]
    rfl
  · refine trivia_of_piece ?_
    have hrun : takeRun1 isLayout cs = some (cs.takeWhile isLayout, cs.dropWhile isLayout) :=
      if_neg (by simpa using hempty)
    rw [triviaPiece, hrun, Option.some_or]

theorem trivia_layout (hc : isLayout c = true) (cs : List Char) :
    trivia (c :: cs) = (trivia cs).behind [c] := by
  rw [trivia_eq_behind (c :: cs), trivia_eq_behind cs, List.takeWhile_cons_of_pos hc,
    List.dropWhile_cons_of_pos hc]
  rfl

/-- **A layout character in front of a text is skipped**, and the place where it stood counts. -/
theorem tokensFrom_layout (modes : Modes) (p : Position) (hc : isLayout c = true) (cs : List Char) :
    tokensFrom modes p (c :: cs) = tokensFrom modes (p.next c) cs := by
  obtain ⟨gap, rest, hgap⟩ : ∃ gap rest, trivia cs = (gap, rest) := ⟨_, _, rfl⟩
  have hgap' : trivia (c :: cs) = (c :: gap, rest) := by
    rw [trivia_layout hc, hgap]
    rfl
  -- Behind the longer gap the same text is left, at the same place.
  cases hopen : opensComment rest with
  | true =>
    rw [tokensFrom_openComment hgap hopen, tokensFrom_openComment hgap' hopen]
    rfl
  | false =>
    by_cases hrest : rest = []
    · subst hrest
      rw [tokensFrom_end hgap, tokensFrom_end hgap']
      rfl
    · cases hscan : scan modes.current rest with
      | error cause =>
        rw [tokensFrom_stuck hgap hopen hrest hscan, tokensFrom_stuck hgap' hopen hrest hscan]
        rfl
      | ok l =>
        rw [tokensFrom_token hgap hopen hscan, tokensFrom_token hgap' hopen hscan]
        rfl

/-! ## Texts of tokens -/

/-- The tokens without the end of the input. -/
def words (ts : List Token) : List Token := ts.filter (!·.isEof)

/-- The texts of tokens, each behind a character. -/
def behindEach (ws : List (Char × Token)) : List Char :=
  ws.flatMap fun w => w.1 :: w.2.text.toList

/-- The texts of tokens, the end of the input left out, each behind a space. -/
def behindSpaces (ts : List Token) : List Char := behindEach ((words ts).map (' ', ·))

/-- The texts of tokens, the end of the input left out, with one space between each two of them. -/
def spaced (ts : List Token) : String := " ".intercalate ((words ts).map Token.text)

theorem behindEach_cons (w : Char × Token) (ws : List (Char × Token)) :
    behindEach (w :: ws) = w.1 :: (w.2.text.toList ++ behindEach ws) := rfl

theorem toList_spaced (ts : List Token) : (spaced ts).toList = (behindSpaces ts).tail := by
  rw [spaced, behindSpaces, String.toList_intercalate, List.map_map]
  induction words ts with
  | nil => rfl
  | cons t ts ih =>
    cases ts with
    | nil => simp [List.intercalate, behindEach]
    | cons t' ts =>
      rw [List.map_cons, List.map_cons, List.intercalate_cons_cons, ← List.map_cons, ih]
      simp [behindEach_cons]

/-- The same words: tokens of the same kinds and texts. -/
def SameWords (ts ts' : List Token) : Prop :=
  ts.map Token.kind = ts'.map Token.kind ∧ ts.map Token.text = ts'.map Token.text

theorem words_token {m : Mode} {l : Lexeme} (h : scan m cs = .ok l) (p : Position)
    (ts : List Token) : words (l.token p :: ts) = l.token p :: words ts := by
  have hne : l.kind ≠ .endOfInput := scan_kind_ne h
  refine List.filter_cons_of_pos ?_
  simpa [Token.isEof, Lexeme.token] using hne

theorem replaces_behindEach {ws : List (Char × Token)} (hblank : ∀ w ∈ ws, isBlank w.1 = true)
    (rest : List Char) : Replaces (behindEach ws) rest := by
  cases ws with
  | nil => exact replaces_nil rest
  | cons w ws => exact replaces_blank (hblank w (by simp)) _ rest

/-- A token is read again without the gap in front of it, when another text may stand behind it. -/
theorem tokensFrom_replaced {gap : List Char} {l : Lexeme} (hgap : trivia cs = (gap, rest))
    (hopen : opensComment rest = false) (hscan : scan modes.current rest = .ok l)
    (hrest : Replaces rest' l.rest) (p : Position) :
    tokensFrom modes p (l.text ++ rest') =
      (tokensFrom (modes.next l.kind) (p.after l.text) rest').map (l.token p :: ·) := by
  obtain ⟨htext, hne⟩ := scan_starts hscan
  have hgapless : Gapless (l.text ++ rest') := by
    refine Gapless.replace ?_ hne hrest
    rw [htext]
    exact gapless_of_trivia hgap hopen
  exact tokensFrom_token hgapless.trivia_eq (gapless_iff.mp hgapless).2 (scan_stable hscan hrest)

/-- **Tokens are read again from their texts**, with a layout character between each two of them,
and wherever the text starts. -/
theorem tokensFrom_parted {ws : List (Char × Token)} (h : tokensFrom modes p cs = .ok ts)
    (hws : ws.map Prod.snd = words ts) (hlayout : ∀ w ∈ ws, isLayout w.1 = true) (p' : Position) :
    ∃ ts', tokensFrom modes p' (behindEach ws).tail = .ok ts' ∧ SameWords ts ts' := by
  replace h := reads_of_tokensFrom h
  induction h generalizing ws p' with
  | last =>
    obtain rfl := List.map_eq_nil_iff.mp hws
    exact ⟨_, tokensFrom_end (trivia_of_none rfl), rfl, rfl⟩
  | @token modes p cs gap rest l ts hgap hopen hscan _ ih =>
    rw [words_token hscan, List.map_eq_cons_iff] at hws
    obtain ⟨⟨c, t⟩, ws, rfl, rfl : t = _, hws⟩ := hws
    have hbehind := (List.forall_mem_cons.mp hlayout).2
    have hblank (w : Char × Token) (hw : w ∈ ws) : isBlank w.1 = true :=
      isBlank_of_isLayout (hbehind w hw)
    -- The character in front of the next token is skipped.
    obtain ⟨p'', hskip⟩ : ∃ p'', tokensFrom (modes.next l.kind) (p'.after l.text) (behindEach ws) =
        tokensFrom (modes.next l.kind) p'' (behindEach ws).tail := by
      cases ws with
      | nil => exact ⟨_, rfl⟩
      | cons w ws => exact ⟨_, tokensFrom_layout _ _ (hbehind w (by simp)) _⟩
    obtain ⟨ts', hts', hkinds, htexts⟩ := ih hws hbehind p''
    refine ⟨l.token p' :: ts', ?_, congrArg (l.kind :: ·) hkinds,
      congrArg (String.ofList l.text :: ·) htexts⟩
    rw [behindEach_cons, List.tail_cons, Lexeme.token, String.toList_ofList,
      tokensFrom_replaced hgap hopen hscan (replaces_behindEach hblank l.rest), hskip, hts']
    rfl

/-- **Tokens are read again from their texts**, with a space before the first of them and without
one, and wherever the text starts. -/
theorem tokensFrom_spaced (h : tokensFrom modes p cs = .ok ts) (p' : Position) :
    (∃ ts', tokensFrom modes p' (behindSpaces ts) = .ok ts' ∧ SameWords ts ts') ∧
      ∃ ts', tokensFrom modes p' (behindSpaces ts).tail = .ok ts' ∧ SameWords ts ts' := by
  have hws : ((words ts).map (' ', ·)).map Prod.snd = words ts := by
    rw [List.map_map]
    exact List.map_id _
  have hlayout : ∀ w ∈ (words ts).map (' ', ·), isLayout w.1 = true := by simp [isLayout]
  refine ⟨?_, tokensFrom_parted h hws hlayout p'⟩
  rw [behindSpaces]
  cases hws' : (words ts).map (' ', ·) with
  | nil =>
    rw [hws'] at hws hlayout
    exact tokensFrom_parted h hws hlayout p'
  | cons w ws =>
    rw [hws'] at hws hlayout
    rw [behindEach_cons, tokensFrom_layout _ _ (hlayout w (by simp))]
    exact tokensFrom_parted h hws hlayout (p'.next w.1)

end Lexer

end PipeQuery

import PipeQuery.Parser.Basic
import PipeQuery.Proofs.Parser.Lookahead

/-!
# Moving the cursor of a stream

The cursor of a stream is moved past the current token and to absolute places, and nothing else
about the stream changes. That a stream ends with its only end of input, and that its cursor is on
one of its tokens, is kept by every move; the bounds that are not checked when tokens are read hold
for this reason.

## Main definitions

* `TokenStream.Move`, `TokenStream.move`, `TokenStream.after`: a move, and the stream behind moves
* `TokenStream.Sound`: what is true of the stream of some tokens, wherever its cursor is

## Main results

* `TokenStream.Proper.move`, `TokenStream.Proper.after`: one move, and any number of them
* `TokenStream.Proper.peek_eq`, `TokenStream.Proper.take?_eq`: reading and moving past a token
* `Parser.run_cut`: a parse does not depend on tokens behind an end of input
* `TokenStream.after_sound`: a stream stays sound
-/

namespace PipeQuery

namespace TokenStream

/-! ## Moves -/

/-- A move of the cursor. -/
inductive Move where
  | consume
  | seek (i : Nat)

/-- The stream behind a move. -/
def move (s : TokenStream) : Move → TokenStream
  | .consume => s.consume
  | .seek i => s.seek i

/-- The stream behind some moves. -/
def after (s : TokenStream) (moves : List Move) : TokenStream := moves.foldl move s

variable {s : TokenStream}

theorem tokens_move (s : TokenStream) (m : Move) : (s.move m).tokens = s.tokens := by
  cases m with
  | consume => exact s.tokens_consume
  | seek i => exact s.tokens_seek i

theorem tokens_after (s : TokenStream) (moves : List Move) : (s.after moves).tokens = s.tokens := by
  induction moves generalizing s with
  | nil => rfl
  | cons m moves ih => exact (ih (s.move m)).trans (s.tokens_move m)

theorem Proper.seek (h : s.Proper) (i : Nat) : (s.seek i).Proper := by
  obtain ⟨ts, eof, hts, hall, heof, -⟩ := h
  refine ⟨ts, eof, hts, hall, heof, ?_⟩
  rw [TokenStream.seek, size_eq hts, Nat.add_sub_cancel]
  exact Nat.min_le_right _ _

/-- **A move keeps the cursor on the tokens.** -/
theorem Proper.move (h : s.Proper) (m : Move) : (s.move m).Proper := by
  cases m with
  | seek i => exact h.seek i
  | consume =>
    cases hw : s.coming with
    | nil =>
      show s.consume.Proper
      rw [h.consume_of_nil hw]
      exact h
    | cons k w => exact (h.consume hw).1

/-- **Any moves keep the cursor on the tokens.** -/
theorem Proper.after (h : s.Proper) (moves : List Move) : (s.after moves).Proper := by
  induction moves generalizing s with
  | nil => exact h
  | cons m moves ih => exact ih (h.move m)

/-! ## Reading -/

theorem Proper.cursor_lt (h : s.Proper) : s.cursor < s.size := by
  have := h.cursor_add
  omega

/-- The last token is the only end of input. -/
theorem Proper.isEof_iff (h : s.Proper) {i : Nat} {t : Token} (ht : s.tokens[i]? = some t) :
    t.isEof = true ↔ i + 1 = s.size := by
  have hi : i < s.size := (Array.getElem?_eq_some_iff.mp ht).1
  constructor
  · intro heof
    -- The tokens before the last do not end the input.
    rcases Nat.lt_or_eq_of_le hi with hlt | heq
    · exact absurd (Token.isEof_iff.mp heof) (h.kind_ne hlt ht)
    · exact heq
  · intro hlast
    obtain ⟨ts, eof, hts, -, heof, -⟩ := h
    rw [size_eq hts] at hlast
    rw [← Array.getElem?_toList, hts, Nat.succ.inj hlast, List.getElem?_concat_length] at ht
    rwa [← Option.some.inj ht]

/-- There is a last token. -/
theorem Proper.getElem?_last (h : s.Proper) : s.tokens[s.size - 1]? = some s.last := by
  have hlt : s.tokens.size - 1 < s.tokens.size :=
    Nat.sub_lt (Nat.zero_lt_of_lt h.cursor_lt) Nat.one_pos
  rw [last, Array.back?, size, Array.getElem?_eq_getElem hlt]
  rfl

/-- **Looking ahead stops at the last token.** -/
theorem Proper.peek_eq (h : s.Proper) (k : Nat) :
    s.tokens[min (s.cursor + max k 1 - 1) (s.size - 1)]? = some (s.peek k) := by
  rcases Nat.lt_or_ge (s.cursor + max k 1 - 1) s.size with hlt | hge
  · rw [Nat.min_eq_left (by omega), peek, Array.getElem?_eq_getElem hlt]
    rfl
  · rw [Nat.min_eq_right (by omega), peek, Array.getElem?_eq_none hge, h.getElem?_last]
    rfl

/-- The cursor is on a token, which is passed unless it is the end of the input. -/
theorem Proper.take?_eq (h : s.Proper) : s.take? = some (s.cursor, s.consume) := by
  rw [take?, h.getElem?_cursor, TokenStream.consume]

/-- The tokens of a stream make the stream again. -/
theorem Proper.ofList_tokens (h : s.Proper) : ofList s.tokens.toList = { s with cursor := 0 } := by
  obtain ⟨ts, eof, hts, hall, heof, -⟩ := h
  rw [ofList, hts, body_concat hall heof, closing_concat hall heof, ← hts, Array.toArray_toList]

/-! ## Sound streams -/

/-- What is true of the stream of `ts`, wherever its cursor is. -/
structure Sound (ts : List Token) (s : TokenStream) : Prop where
  tokens_eq : s.tokens = (ofList ts).tokens
  /-- There is an end of input, it is the only one, and it is the last token. -/
  isEof_iff : ∀ i t, s.tokens[i]? = some t → (t.isEof = true ↔ i + 1 = s.size)
  cursor_lt : s.cursor < s.size
  /-- Past the end stands the last token, and zero places ahead the current one. -/
  peek_eq : ∀ k, s.tokens[min (s.cursor + max k 1 - 1) (s.size - 1)]? = some (s.peek k)
  take_eq : s.take? = some (s.cursor, s.consume)
  consume_eq : s.consume = if (s.peek 1).isEof then s else { s with cursor := s.cursor + 1 }
  ofList_tokens : ofList s.tokens.toList = { s with cursor := 0 }

theorem Proper.sound (h : s.Proper) {ts : List Token} (htokens : s.tokens = (ofList ts).tokens) :
    s.Sound ts where
  tokens_eq := htokens
  isEof_iff _ _ := h.isEof_iff
  cursor_lt := h.cursor_lt
  peek_eq := h.peek_eq
  take_eq := h.take?_eq
  consume_eq := rfl
  ofList_tokens := h.ofList_tokens

end TokenStream

namespace Parser

/-- **No parse depends on tokens behind an end of input.** -/
theorem run_cut (entry : Run Unit) {eof : Token} (heof : eof.isEof = true) (ts more : List Token) :
    run entry (ts ++ eof :: more) = run entry (ts ++ [eof]) := by
  rw [run, run, TokenStream.ofList_cut heof]

end Parser

namespace TokenStream

/-- **A stream stays sound.** Lists and arrays of tokens make the same stream, by whatever way it is
made; wherever its cursor is moved, the tokens are the same, the last and no other is an end of
input, the cursor is on one of them, looking ahead stops at the last, moving past a token tells its
place and stops at the end of the input, and the tokens make the stream again; and neither the
stream nor a parse depends on tokens behind an end of input. -/
theorem after_sound (ts : List Token) (moves : List Move) :
    (ofSource ts = ofList ts ∧ ofSource ts.toArray = ofList ts ∧ ofArray ts.toArray = ofList ts) ∧
    ((ofList ts).after moves).Sound ts ∧
    ∀ eof more, eof.isEof = true →
      ofList (ts ++ eof :: more) = ofList (ts ++ [eof]) ∧
      (∀ options, parseTokens options (ts ++ eof :: more) = parseTokens options (ts ++ [eof])) ∧
      ∀ options floor, parseExpressionTokens options floor (ts ++ eof :: more) =
        parseExpressionTokens options floor (ts ++ [eof]) := by
  refine ⟨⟨ofSource_list ts, ofSource_array ts.toArray, rfl⟩,
    ((proper_ofList ts).after moves).sound (tokens_after _ moves), fun eof more heof => ?_⟩
  exact ⟨ofList_cut heof ts more, fun options => Parser.run_cut _ heof ts more,
    fun options floor => Parser.run_cut _ heof ts more⟩

/-- A stream of two tokens and its end, moved past all of them and back to the second. -/
theorem after_sound_two :
    let ts := [Token.ofKind .rowCmd, Token.ofKind .name]
    let s := (ofList ts).after [.consume, .consume, .consume, .seek 1]
    let eof := Token.ofKind .endOfInput
    s.cursor < s.size ∧ s.tokens[2]? = some (s.peek 2) ∧ s.take? = some (1, s.consume) ∧
      ofList s.tokens.toList = { s with cursor := 0 } ∧
      ofList (ts ++ eof :: ts) = ofList (ts ++ [eof]) ∧
      parseTokens .standard (ts ++ eof :: ts) = parseTokens .standard (ts ++ [eof]) := by
  intro ts s eof
  obtain ⟨-, hsound, hcut⟩ := after_sound ts [.consume, .consume, .consume, .seek 1]
  obtain ⟨hstream, hparse, -⟩ := hcut eof ts rfl
  have hpeek := hsound.peek_eq 2
  have htake := hsound.take_eq
  have hcursor : s.cursor = 1 := by decide
  have hsize : s.size = 3 := by decide
  rw [hcursor, hsize] at hpeek
  rw [hcursor] at htake
  exact ⟨hsound.cursor_lt, hpeek, htake, hsound.ofList_tokens, hstream, hparse .standard⟩

end TokenStream

end PipeQuery

import PipeQuery.Parser.Prediction
import PipeQuery.Proofs.Parser.Script

/-!
# The tokens to come

A token stream, seen from its cursor, is the list of the kinds of the tokens to come before the end
of the input. Looking ahead and moving on are operations on this list, and so are the three
predictions.

## Main definitions

* `TokenStream.Proper`: a stream that ends with its only end of input
* `TokenStream.coming`: the kinds of the tokens to come

## Main results

* `TokenStream.Proper.kindAt_eq`, `TokenStream.Proper.remaining_eq`: looking ahead
* `TokenStream.Proper.consume`: moving on
* `field?_eq`, `primary?_eq`, `clause?_eq`: predictions look at the tokens to come only
-/

namespace PipeQuery

open Token (Kind)
open PipeQuery.Parser (next)

/-- A token of a kind, without a text or a place of its own. -/
def Token.ofKind (k : Kind) : Token := ⟨k, "", .origin⟩

namespace TokenStream

/-- A stream that ends with its only end of input, with the cursor on one of its tokens. -/
def Proper (s : TokenStream) : Prop :=
  ∃ ts eof, s.tokens.toList = ts ++ [eof] ∧ (∀ t ∈ ts, t.isEof = false) ∧ eof.isEof = true ∧
    s.cursor ≤ ts.length

/-- The kinds of the tokens to come, before the end of the input. -/
def coming (s : TokenStream) : List Kind :=
  ((s.tokens.toList.drop s.cursor).dropLast).map Token.kind

theorem isEof_closing (ts : List Token) : (closing ts).isEof = true := by
  rw [closing]
  cases hfind : ts.find? Token.isEof with
  | none => exact Token.isEof_eof _
  | some t => exact List.find?_some hfind

/-- The stream of a list is proper. -/
theorem proper_ofList (ts : List Token) : (ofList ts).Proper := by
  refine ⟨body ts, closing ts, rfl, fun t ht => ?_, isEof_closing ts, Nat.zero_le _⟩
  have hall := List.all_takeWhile (l := ts) (p := fun t => !t.isEof)
  simpa using List.all_eq_true.mp hall t ht

theorem coming_ofList (ts : List Token) : (ofList ts).coming = (body ts).map Token.kind := by
  simp [coming, ofList]

/-- What comes of a list that ends with its only end of input. -/
theorem coming_ofList_concat {ts : List Token} {eof : Token} (hts : ∀ t ∈ ts, t.isEof = false)
    (heof : eof.isEof = true) : (ofList (ts ++ [eof])).coming = ts.map Token.kind := by
  rw [coming_ofList, body_concat hts heof]

variable {s : TokenStream}

theorem coming_eq {ts : List Token} {eof : Token} (h : s.tokens.toList = ts ++ [eof])
    (hc : s.cursor ≤ ts.length) : s.coming = (ts.drop s.cursor).map Token.kind := by
  rw [coming, h, List.drop_append_of_le_length hc, List.dropLast_concat]

theorem size_eq {ts : List Token} {eof : Token} (h : s.tokens.toList = ts ++ [eof]) :
    s.size = ts.length + 1 := by
  rw [size, ← Array.length_toList, h, List.length_append, List.length_singleton]

/-- No end of input is to come before the end of the input. -/
theorem Proper.ne_of_mem (h : s.Proper) {k : Kind} (hk : k ∈ s.coming) : k ≠ .endOfInput := by
  obtain ⟨ts, eof, hts, hall, -, hc⟩ := h
  rw [coming_eq hts hc] at hk
  obtain ⟨t, ht, rfl⟩ := List.mem_map.mp hk
  intro heq
  have hfalse := hall t (List.mem_of_mem_drop ht)
  rw [Token.isEof_iff.mpr heq] at hfalse
  cases hfalse

theorem Proper.coming_eq_nil (h : s.Proper) (hk : next s.coming = .endOfInput) : s.coming = [] := by
  cases hw : s.coming with
  | nil => rfl
  | cons k w =>
    rw [hw, Parser.next_cons] at hk
    exact absurd hk (h.ne_of_mem (hw ▸ List.mem_cons_self))

theorem Proper.cursor_add (h : s.Proper) : s.cursor + s.coming.length + 1 = s.size := by
  obtain ⟨ts, eof, hts, -, -, hc⟩ := h
  rw [coming_eq hts hc, List.length_map, List.length_drop, size_eq hts]
  omega

theorem Proper.remaining_eq (h : s.Proper) : s.remaining = s.coming.length := by
  have := h.cursor_add
  rw [remaining]
  omega

/-- **Looking ahead** is looking into the list. -/
theorem Proper.kindAt_eq (h : s.Proper) (k : Nat) : s.kindAt (k + 1) = next (s.coming.drop k) := by
  obtain ⟨ts, eof, hts, -, heof, hc⟩ := h
  have hlast : s.last = eof := by
    rw [last, ← Array.getLast?_toList, hts, List.getLast?_concat]
    rfl
  have hpeek : s.peek (k + 1) = ((ts ++ [eof])[s.cursor + k]?).getD eof := by
    have hmax : s.cursor + max (k + 1) 1 - 1 = s.cursor + k := by omega
    rw [peek, hlast, hmax, ← Array.getElem?_toList, hts]
  rw [kindAt, hpeek, coming_eq hts hc, next, ← List.map_drop, List.drop_drop,
    List.headD_eq_head?_getD, List.head?_map, List.head?_drop]
  by_cases hlt : s.cursor + k < ts.length
  · rw [List.getElem?_append_left hlt, List.getElem?_eq_getElem hlt]
    rfl
  · have heof : ((ts ++ [eof])[s.cursor + k]?).getD eof = eof := by
      rw [List.getElem?_append_right (Nat.le_of_not_lt hlt), List.getElem?_singleton]
      split <;> rfl
    rw [heof, List.getElem?_eq_none (Nat.le_of_not_lt hlt), Token.isEof_iff.mp ‹_›]
    rfl

theorem Proper.kindAt_one (h : s.Proper) : s.kindAt 1 = next s.coming := h.kindAt_eq 0

/-- Moving past a token takes the first kind off the list. -/
theorem Proper.consume (h : s.Proper) {k : Kind} {w : List Kind} (hw : s.coming = k :: w) :
    s.consume.Proper ∧ s.consume.coming = w ∧ s.consume.cursor = s.cursor + 1 := by
  have hne : (s.peek 1).isEof = false := by
    have hkind : s.kindAt 1 = k := by rw [h.kindAt_one, hw, Parser.next_cons]
    rw [Bool.eq_false_iff, ne_eq, Token.isEof_iff, ← kindAt, hkind]
    exact h.ne_of_mem (hw ▸ List.mem_cons_self)
  have hconsume : s.consume = { s with cursor := s.cursor + 1 } := by
    rw [TokenStream.consume, hne]
    rfl
  obtain ⟨ts, eof, hts, hall, heof, hc⟩ := h
  have hlt : s.cursor + 1 ≤ ts.length := by
    have hlen := congrArg List.length hw
    rw [coming_eq hts hc, List.length_map, List.length_drop, List.length_cons] at hlen
    omega
  rw [hconsume]
  refine ⟨⟨ts, eof, hts, hall, heof, hlt⟩, ?_, rfl⟩
  have hdrop : ({ s with cursor := s.cursor + 1 } : TokenStream).coming =
      (ts.drop (s.cursor + 1)).map Token.kind := coming_eq hts hlt
  rw [hdrop, ← List.tail_drop, List.map_tail, ← coming_eq hts hc, hw, List.tail_cons]

/-- The current token, by its place in the stream. -/
theorem Proper.getElem?_cursor (h : s.Proper) : s.tokens[s.cursor]? = some (s.peek 1) := by
  have hlt : s.cursor < s.tokens.size := by
    have hadd := h.cursor_add
    rw [size] at hadd
    omega
  rw [peek, Nat.max_self, Nat.add_sub_cancel, Array.getElem?_eq_getElem hlt]
  rfl

theorem Proper.token_kind (h : s.Proper) :
    (s.tokens[s.cursor]?.getD default).kind = next s.coming := by
  rw [h.getElem?_cursor, ← h.kindAt_one]
  rfl

/-- Only the last token is an end of input. -/
theorem Proper.kind_ne (h : s.Proper) {i : Nat} (hi : i + 1 < s.size) {t : Token}
    (ht : s.tokens[i]? = some t) : t.kind ≠ .endOfInput := by
  obtain ⟨ts, eof, hts, hall, -, -⟩ := h
  rw [size_eq hts] at hi
  rw [← Array.getElem?_toList, hts, List.getElem?_append_left (Nat.lt_of_succ_lt_succ hi)] at ht
  have hfalse := hall t (List.mem_of_getElem? ht)
  intro heof
  rw [Token.isEof_iff.mpr heof] at hfalse
  cases hfalse

/-- The end of the input is never passed. -/
theorem Proper.consume_of_nil (h : s.Proper) (hw : s.coming = []) : s.consume = s := by
  have hkind : s.kindAt 1 = .endOfInput := by rw [h.kindAt_one, hw, Parser.next_nil]
  rw [TokenStream.consume, if_pos (Token.isEof_iff.mpr hkind)]

end TokenStream

namespace Parser

variable {s : TokenStream}

/-- A name goes on where a dot and a name come next. -/
theorem next_nameTail (w : List Kind) :
    next (nameTail w) = if next w = .dot && isName (next w.tail) then next (nameTail w.tail.tail)
      else next w := by
  match w with
  | [] => rfl
  | [k] =>
    have hnone : isName (next [k].tail) = false := by
      show isName .endOfInput = false
      decide
    rw [hnone, Bool.and_false]
    unfold nameTail
    split
    · rename_i heq
      cases heq
    · rfl
  | k₁ :: k₂ :: w =>
    by_cases hdot : k₁ = .dot
    · subst hdot
      rw [nameTail]
      cases hname : isName k₂ <;> simp [hname]
    · unfold nameTail
      split
      · rename_i heq
        exact absurd (List.cons.inj heq).1 hdot
      · simp [hdot]

/-- The name that comes next ends where it ends in the list. -/
theorem kindAt_nameEnd (h : s.Proper) (n k : Nat) (hn : (s.coming.drop k).length ≤ n) :
    s.kindAt (nameEnd s n (k + 1)) = next (nameTail (s.coming.drop k)) := by
  induction n generalizing k with
  | zero =>
    have hnil := List.length_eq_zero_iff.mp (Nat.le_zero.mp hn)
    rw [nameEnd, h.kindAt_eq, hnil]
    rfl
  | succ n ih =>
    have hlen : (s.coming.drop (k + 2)).length ≤ n := by
      rw [List.length_drop] at hn ⊢
      omega
    rw [nameEnd, h.kindAt_eq, h.kindAt_eq, next_nameTail, List.tail_drop, List.tail_drop,
      apply_ite s.kindAt, ih (k + 2) hlen, h.kindAt_eq]

/-- **Predictions look at the tokens to come only.** -/
theorem field?_eq (h : s.Proper) : field? s = fieldForm? s.coming := by
  have hname : s.kindAt (nameEnd s s.remaining 2) = next (nameTail s.coming.tail) := by
    rw [h.remaining_eq, ← List.drop_one]
    exact kindAt_nameEnd h _ 1 (by rw [List.length_drop]; omega)
  rw [field?, fieldForm?, h.kindAt_one, hname]

theorem primary?_eq (h : s.Proper) : primary? s = primaryForm? s.coming := by
  rw [primary?, primaryForm?, h.kindAt_one, h.kindAt_eq 1, List.drop_one]

theorem clause?_eq (h : s.Proper) : clause? s = clauseForm? s.coming := by
  rw [clause?, clauseForm?, h.kindAt_one, h.kindAt_eq 1, List.drop_one]

end Parser

end PipeQuery

import Mathlib.Data.List.Induction
import Mathlib.Data.List.TakeWhile
import PipeQuery.Lexer.Basic
import PipeQuery.Text.Slice

/-!
# The layout of a source

A source is laid out as its tokens: in front of each stands a gap of blanks and comments, and the
place of a token is that of its text. Nothing of the source is lost, since gaps and texts make it
up, and no token starts with the end of the input before the last.

## Main definitions

* `Lexer.Gap`: blanks and comments in front of a text
* `Span.Covers`: the place of a text behind another
* `Lexer.Reads`: a text and the tokens that it is read as, one behind the other
* `Lexer.LaidOut`: a text made up of gaps and the texts of tokens

## Main results

* `Lexer.trivia_gap`: what is skipped is a gap
* `Lexer.scan_kind_ne`: no text is read as the end of the input
* `Lexer.reads_of_tokensFrom`: a text that is lexed is read as its tokens
* `tokenizeIn_lossless`: a source that is lexed is laid out as its tokens
-/

namespace PipeQuery

open Token (Kind)

/-- The bytes of a string are those of its characters. -/
theorem utf8ByteSize_eq (s : String) : s.utf8ByteSize = utf8Length s.toList := by
  have hbytes (cs : List Char) : (String.ofList cs).utf8ByteSize = utf8Length cs := by
    induction cs with
    | nil => rfl
    | cons c cs ih =>
      rw [← List.singleton_append, String.ofList_append, String.utf8ByteSize_append, ih]
      simp
  rw [← hbytes, String.ofList_toList]

/-! ## Lines and columns -/

namespace Position

theorem after_concat (p : Position) (cs : List Char) (c : Char) :
    p.after (cs ++ [c]) = (p.after cs).next c := by
  rw [after_append, after_cons, after_nil]

/-- The line of a place is one more than the number of line feeds before it. -/
theorem line_after (cs : List Char) : (start.after cs).line = 1 + cs.count '\n' := by
  induction cs using List.reverseRecOn with
  | nil => rfl
  | append_singleton cs c ih =>
    rw [after_concat, next, List.count_append]
    by_cases hc : c = '\n'
    · simp [hc, ih, Nat.add_assoc]
    · simp [hc, ih]

/-- The column of a place is one more than the number of characters behind the last line feed before
it. -/
theorem column_after (cs : List Char) :
    (start.after cs).column = 1 + (cs.reverse.takeWhile (· ≠ '\n')).length := by
  induction cs using List.reverseRecOn with
  | nil => rfl
  | append_singleton cs c ih =>
    rw [after_concat, next, List.reverse_append, List.reverse_singleton, List.singleton_append,
      List.takeWhile_cons]
    by_cases hc : c = '\n'
    · simp [hc]
    · simp [hc, ih, Nat.add_comm]

theorem offset_start_after (cs : List Char) : (start.after cs).offset = utf8Length cs := by
  rw [offset_after]
  exact Nat.zero_add _

end Position

/-- The span covers `text`, in a source where `before` stands before it: its bytes are those of the
text, its line counts the line feeds before, and its column the characters behind the last of
them. -/
structure Span.Covers (s : Span) (before text : List Char) : Prop where
  start_eq : s.start = utf8Length before
  stop_eq : s.stop = utf8Length before + utf8Length text
  line_eq : s.line = 1 + before.count '\n'
  column_eq : s.column = 1 + (before.reverse.takeWhile (· ≠ '\n')).length

theorem Span.covers_between (before text : List Char) :
    (Span.between (.after .start before) (.after .start (before ++ text))).Covers before text := by
  constructor
  · exact Position.offset_start_after before
  · exact (Position.offset_start_after _).trans (utf8Length_append before text)
  · exact Position.line_after before
  · exact Position.column_after before

namespace Lexer

/-! ## Gaps -/

/-- Blanks and comments in front of the text `behind`. A comment between `/*` and `*/` ends where it
first can, and a comment behind `//` at the end of its line, which may be that of the source. -/
inductive Gap (behind : List Char) : List Char → Prop
  | nil : Gap behind []
  | blank {c : Char} {gap : List Char} (hc : c = ' ' ∨ c = '\t' ∨ c = '\r' ∨ c = '\n')
    (h : Gap behind gap) : Gap behind (c :: gap)
  | line {comment gap : List Char} (hc : ∀ c ∈ comment, c ≠ '\n' ∧ c ≠ '\r')
    (hend : ∀ c ∈ (gap ++ behind).head?, c = '\n' ∨ c = '\r') (h : Gap behind gap) :
    Gap behind ('/' :: '/' :: comment ++ gap)
  | block {comment gap : List Char} (hc : ¬ ['*', '/'] <:+: comment) (h : Gap behind gap) :
    Gap behind ('/' :: '*' :: comment ++ '*' :: '/' :: gap)

variable {cs gap behind : List Char} {cut : Cut}

theorem Gap.blanks (h : Gap behind gap) {piece : List Char} (hp : ∀ c ∈ piece, isLayout c = true) :
    Gap behind (piece ++ gap) := by
  induction piece with
  | nil => exact h
  | cons c piece ih =>
    obtain ⟨hc, hp⟩ := List.forall_mem_cons.mp hp
    refine .blank ?_ (ih hp)
    simpa [isLayout, or_assoc] using hc

/-- What is taken through a mark ends with the first occurrence of the mark. -/
theorem takeThrough_eq {mark : List Char} (hmark : mark ≠ []) (h : takeThrough mark cs = some cut) :
    ∃ body, cut.1 = body ++ mark ∧ ¬ mark <:+: body := by
  induction cs generalizing cut with
  | nil =>
    rw [takeThrough, if_neg (by simpa using hmark)] at h
    cases h
  | cons c cs ih =>
    rw [takeThrough] at h
    split at h
    · cases h
      refine ⟨[], rfl, ?_⟩
      rwa [List.infix_nil]
    · rename_i hprefix
      obtain ⟨inner, hinner, rfl⟩ := Option.map_eq_some_iff.mp h
      obtain ⟨body, hbody, hfirst⟩ := ih hinner
      refine ⟨c :: body, by simp [Cut.behind, hbody], ?_⟩
      rw [List.infix_cons_iff]
      rintro (hhere | hlater)
      · -- The mark would have been found one character earlier.
        obtain ⟨tail, htail⟩ : c :: body <+: c :: cs := by
          refine ⟨mark ++ inner.2, ?_⟩
          rw [← takeThrough_append hinner, hbody]
          simp
        exact hprefix (List.isPrefixOf_iff_prefix.mpr (hhere.trans ⟨tail, htail⟩))
      · exact hfirst hlater

theorem lineComment_gap (h : lineComment cs = some cut) (hgap : Gap behind gap)
    (hrest : gap ++ behind = cut.2) : Gap behind (cut.1 ++ gap) := by
  unfold lineComment at h
  split at h <;> cases h
  rename_i cs
  refine .line ?_ ?_ hgap
  · intro c hc
    have := List.mem_takeWhile_imp hc
    simpa using this
  · intro c hc
    rw [hrest] at hc
    have hstop := List.head?_dropWhile_not (fun c => c != '\n' && c != '\r') cs
    have hdrop : (cs.dropWhile fun c => c != '\n' && c != '\r').head? = some c := hc
    rw [hdrop] at hstop
    simp only [Bool.and_eq_false_iff, bne_eq_false_iff_eq] at hstop
    exact hstop

theorem blockComment_gap (h : blockComment cs = some cut) (hgap : Gap behind gap) :
    Gap behind (cut.1 ++ gap) := by
  unfold blockComment at h
  split at h
  · obtain ⟨inner, hinner, rfl⟩ := Option.map_eq_some_iff.mp h
    obtain ⟨comment, hcomment, hfirst⟩ := takeThrough_eq (by simp) hinner
    have hblock : Gap behind ('/' :: '*' :: comment ++ '*' :: '/' :: gap) := .block hfirst hgap
    simpa [Cut.behind, hcomment] using hblock
  · cases h

theorem triviaPiece_gap (h : triviaPiece cs = some cut) (hgap : Gap behind gap)
    (hrest : gap ++ behind = cut.2) : Gap behind (cut.1 ++ gap) := by
  simp only [triviaPiece, Option.or_eq_some_iff] at h
  rcases h with h | ⟨-, h | ⟨-, h⟩⟩
  · refine hgap.blanks ?_
    intro c hc
    unfold takeRun1 at h
    split at h <;> cases h
    exact List.mem_takeWhile_imp hc
  · exact lineComment_gap h hgap hrest
  · exact blockComment_gap h hgap

/-- **What is skipped in front of a token is a gap.** -/
theorem trivia_gap (cs : List Char) : Gap (trivia cs).2 (trivia cs).1 := by
  induction cs using trivia.induct with
  | case1 cs piece rest h ih =>
    rw [trivia_of_piece h]
    exact triviaPiece_gap h ih (trivia_append rest)
  | case2 cs h =>
    rw [trivia_of_none h]
    exact .nil

/-! ## Kinds -/

theorem keyword?_mem {ks : List Kind} {word : List Char} {k : Kind}
    (h : keyword? ks word = some k) :
    k ∈ ks :=
  List.mem_of_find?_eq_some h

/-- A word is a keyword of a list, or has the kind of other words. -/
theorem keyword?_getD_ne {ks : List Kind} (hks : .endOfInput ∉ ks) {k : Kind}
    (hk : k ≠ .endOfInput) (word : List Char) : (keyword? ks word).getD k ≠ .endOfInput := by
  cases h : keyword? ks word with
  | none => exact hk
  | some k' =>
    rintro rfl
    exact hks (keyword?_mem h)

theorem numberAfter_kind_ne (ds cs : List Char) : (numberAfter ds cs).kind ≠ .endOfInput := by
  unfold numberAfter
  split
  · simp [Cut.lexeme]
  · split <;> simp [Cut.lexeme]

theorem operator_kind_ne {l : Lexeme} (h : operator cs = some l) : l.kind ≠ .endOfInput := by
  unfold operator at h
  split at h <;> cases h <;> simp

theorem commandMark_kind_ne {l : Lexeme} (h : commandMark cs = some l) : l.kind ≠ .endOfInput := by
  unfold commandMark at h
  split at h <;> cases h <;> simp

theorem sourceMark_kind_ne {l : Lexeme} (h : sourceMark cs = some l) : l.kind ≠ .endOfInput := by
  unfold sourceMark at h
  split at h <;> cases h <;> simp

/-- **No text is read as the end of the input.** -/
theorem scan_kind_ne {m : Mode} {l : Lexeme} (h : scan m cs = .ok l) : l.kind ≠ .endOfInput := by
  cases found_of_scan h with
  | commandMark hf => exact commandMark_kind_ne hf
  | commandWord | identifier => exact keyword?_getD_ne (by decide) (by decide) _
  | string | quotedName | quotedSourceName | sourceWord => simp [Cut.lexeme]
  | number hf =>
    obtain ⟨cut, -, rfl⟩ := Option.map_eq_some_iff.mp hf
    exact numberAfter_kind_ne cut.1 cut.2
  | operator hf => exact operator_kind_ne hf
  | sourceMark hf => exact sourceMark_kind_ne hf

/-! ## Texts that are lexed -/

/-- The text `cs` is read as tokens, from the place `p` on and in `modes`: as the end of the input
behind a gap, or as a first token behind a gap and what the rest is read as. -/
inductive Reads : Modes → Position → List Char → List Token → Prop
  | last {modes : Modes} {p : Position} {cs gap : List Char} (hgap : trivia cs = (gap, [])) :
    Reads modes p cs [.eof (.between (p.after gap) (p.after gap))]
  | token {modes : Modes} {p : Position} {cs gap rest : List Char} {l : Lexeme} {ts : List Token}
    (hgap : trivia cs = (gap, rest)) (hopen : opensComment rest = false)
    (hscan : scan modes.current rest = .ok l)
    (h : Reads (modes.next l.kind) ((p.after gap).after l.text) l.rest ts) :
    Reads modes p cs (l.token (p.after gap) :: ts)

theorem reads_of_tokensFrom {modes : Modes} {p : Position} {ts : List Token}
    (h : tokensFrom modes p cs = .ok ts) : Reads modes p cs ts := by
  induction modes, p, cs using tokensFrom.induct generalizing ts with
  | case1 modes p cs gap rest hgap hopen =>
    rw [tokensFrom_openComment hgap hopen] at h
    cases h
  | case2 modes p cs gap rest hgap _ hrest =>
    obtain rfl := List.isEmpty_iff.mp hrest
    rw [tokensFrom_end hgap] at h
    cases h
    exact .last hgap
  | case3 modes p cs gap rest hgap hopen hrest cause hscan =>
    rw [tokensFrom_stuck hgap (by simpa using hopen) (by simpa using hrest) hscan] at h
    cases h
  | case4 modes p cs gap rest hgap _ hopen hrest l hscan =>
    rename_i ih
    have hopen : opensComment rest = false := by simpa using hopen
    rw [tokensFrom_token hgap hopen hscan] at h
    obtain ⟨ts, hts, rfl⟩ := exists_of_map_ok h
    exact .token hgap hopen hscan (ih hts)

/-- Behind the text `before`, a text is laid out as tokens: it is made up of their texts, each
behind a gap, and their spans are the places of these texts. The last token marks the end, and no
other does. -/
inductive LaidOut : List Char → List Char → List Token → Prop
  | last {before gap : List Char} {t : Token} (h : Gap [] gap) (hk : t.kind = .endOfInput)
    (hs : t.span.Covers (before ++ gap) []) : LaidOut before gap [t]
  | token {before gap rest : List Char} {t : Token} {ts : List Token}
    (h : Gap (t.text.toList ++ rest) gap) (hk : t.kind ≠ .endOfInput) (hne : t.text.toList ≠ [])
    (hs : t.span.Covers (before ++ gap) t.text.toList)
    (hr : LaidOut (before ++ gap ++ t.text.toList) rest ts) :
    LaidOut before (gap ++ t.text.toList ++ rest) (t :: ts)

/-- The tokens of a text behind another are those that it is laid out as. -/
theorem tokensFrom_laidOut {modes : Modes} {tokens : List Token} (before : List Char)
    (h : tokensFrom modes (.after .start before) cs = .ok tokens) : LaidOut before cs tokens := by
  replace h := reads_of_tokensFrom h
  generalize hp : Position.start.after before = p at h
  induction h generalizing before with
  | @last modes p cs gap hgap =>
    -- Only the end of the input is left.
    have happend := append_of_trivia hgap
    have hskipped := trivia_gap cs
    rw [hgap] at hskipped
    rw [← hp, ← happend, List.append_nil, ← Position.after_append]
    refine .last hskipped rfl ?_
    have hcovers := Span.covers_between (before ++ gap) []
    rwa [List.append_nil] at hcovers
  | @token modes p cs gap rest l ts hgap _ hscan _ ih =>
    obtain ⟨htext, hne⟩ := scan_starts hscan
    have happend := append_of_trivia hgap
    have hskipped := trivia_gap cs
    rw [hgap] at hskipped
    have htoken : (l.token (.after .start (before ++ gap))).text.toList = l.text :=
      String.toList_ofList
    have hcovers : (l.token (.after .start (before ++ gap))).span.Covers (before ++ gap) l.text := by
      show (Span.between _ (Position.after _ l.text)).Covers _ _
      rw [← Position.after_append]
      exact Span.covers_between (before ++ gap) l.text
    have hlaid := ih (before ++ gap ++ l.text) (by
      rw [← hp, Position.after_append, Position.after_append])
    rw [← hp, ← happend, ← htext, ← List.append_assoc]
    rw [← htext] at hskipped
    rw [← htoken] at hskipped hne hcovers hlaid ⊢
    rw [← Position.after_append]
    exact .token hskipped (scan_kind_ne hscan) hne hcovers hlaid

theorem LaidOut.eq_append {before cs : List Char} {tokens : List Token}
    (h : LaidOut before cs tokens) : ∃ body last, tokens = body ++ [last] ∧
      last.kind = .endOfInput ∧ last.span.start = utf8Length (before ++ cs) ∧
      last.span.stop = utf8Length (before ++ cs) ∧ ∀ t ∈ body, t.kind ≠ .endOfInput ∧
        t.span.start < t.span.stop ∧
        slice? (before ++ cs) t.span.start t.span.stop = some t.text.toList := by
  induction h with
  | @last before gap t h hk hs => exact ⟨[], t, rfl, hk, hs.start_eq, hs.stop_eq, by simp⟩
  | @token before gap rest t ts h hk hne hs hr ih =>
    obtain ⟨body, last, rfl, hlast, hstart, hstop, hbody⟩ := ih
    have hassoc : before ++ gap ++ t.text.toList ++ rest = before ++ (gap ++ t.text.toList ++ rest) := by
      simp
    rw [hassoc] at hstart hstop hbody
    refine ⟨t :: body, last, rfl, hlast, hstart, hstop, ?_⟩
    rw [List.forall_mem_cons]
    refine ⟨⟨hk, ?_, ?_⟩, hbody⟩
    · obtain ⟨c, text, htext⟩ := List.exists_cons_of_ne_nil hne
      have hpos := c.utf8Size_pos
      rw [hs.start_eq, hs.stop_eq, htext, utf8Length_cons]
      omega
    · rw [hs.start_eq, hs.stop_eq, ← hassoc]
      exact slice?_append ..

/-- The spans of the tokens lie behind the text before, one behind the other. -/
theorem LaidOut.pairwise {before cs : List Char} {tokens : List Token}
    (h : LaidOut before cs tokens) : (∀ t ∈ tokens, utf8Length before ≤ t.span.start) ∧
      tokens.Pairwise fun t t' => t.span.stop ≤ t'.span.start := by
  induction h with
  | last h hk hs =>
    refine ⟨?_, List.pairwise_singleton _ _⟩
    rw [List.forall_mem_singleton, hs.start_eq, utf8Length_append]
    exact Nat.le_add_right _ _
  | @token before gap rest t ts h hk hne hs hr ih =>
    obtain ⟨hbehind, hordered⟩ := ih
    have hstart : utf8Length before ≤ t.span.start := by
      rw [hs.start_eq, utf8Length_append]
      exact Nat.le_add_right _ _
    -- The token stops where the text starts that the others are laid out in.
    have hstop : t.span.stop = utf8Length (before ++ gap ++ t.text.toList) := by
      rw [hs.stop_eq, ← utf8Length_append]
    rw [List.forall_mem_cons, List.pairwise_cons, hstop]
    refine ⟨⟨hstart, ?_⟩, hbehind, hordered⟩
    intro t' ht'
    have hle := hbehind t' ht'
    rw [List.append_assoc, utf8Length_append] at hle
    exact Nat.le_trans (Nat.le_add_right _ _) hle

end Lexer

open Lexer

/-- **Lexing loses nothing.** A source that is lexed, in whatever mode, is laid out as its tokens:
gaps and texts make it up, and each token has its place. The last token marks the end of the source
and is the only one to do so; the others have some bytes each, which are their texts, and their
spans do not overlap. -/
theorem tokenizeIn_lossless {m : Mode} {source : String} {tokens : List Token}
    (h : tokenizeIn m source = .ok tokens) :
    LaidOut [] source.toList tokens ∧
    (∃ body last, tokens = body ++ [last] ∧ last.kind = .endOfInput ∧
      last.span.start = source.utf8ByteSize ∧ last.span.stop = source.utf8ByteSize ∧
      ∀ t ∈ body, t.kind ≠ .endOfInput ∧ t.span.start < t.span.stop ∧
        slice? source.toList t.span.start t.span.stop = some t.text.toList) ∧
    tokens.Pairwise fun t t' => t.span.stop ≤ t'.span.start := by
  have hlaid : LaidOut [] source.toList tokens := tokensFrom_laidOut [] h
  refine ⟨hlaid, ?_, hlaid.pairwise.2⟩
  rw [utf8ByteSize_eq]
  exact hlaid.eq_append

/-- A source with two comments, one of which ends a line, and a character of two bytes. -/
theorem tokenizeIn_lossless_comments :
    ∃ tokens, tokenizeIn .command "from ß // x\n| limit /* */ 5" = .ok tokens ∧
      LaidOut [] "from ß // x\n| limit /* */ 5".toList tokens := by
  cases h : tokenizeIn .command "from ß // x\n| limit /* */ 5" with
  | ok tokens => exact ⟨tokens, rfl, (tokenizeIn_lossless h).1⟩
  | error e =>
    have hok : (tokenizeIn .command "from ß // x\n| limit /* */ 5").isOk = true := by decide +kernel
    rw [h] at hok
    cases hok

end PipeQuery

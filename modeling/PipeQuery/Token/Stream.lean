import PipeQuery.Token.Basic

/-!
# Token streams

A token stream is a sequence of tokens that ends with exactly one end-of-input token, and a
cursor in it. Tokens behind the first end of input are dropped, and a missing end of input is
added behind the last token.

## Main definitions

* `TokenStream`, `TokenStream.ofList`: a stream, and the stream of any list of tokens
* `Token.Source`, `TokenStream.ofSource`: what tokens can be read from by their places, and its
  stream
* `TokenStream.peek`, `TokenStream.kindAt`: the token `k` places ahead and its kind
* `TokenStream.consume`, `TokenStream.take?`, `TokenStream.seek`: moving the cursor

## Main results

* `toList_tokens_ofList`: the tokens of a new stream
* `ofSource_eq`, `ofList_cut`: how a stream is made, and which tokens do not count
* `body_append`, `closing_append`: tokens behind others that do not end the input
* `ofList_eq_iff`: streams that differ in their end only
* `tokens_consume`, `tokens_seek`: the cursor moves, the tokens stay
-/

namespace PipeQuery

/-- What tokens can be read from, by their places. -/
class Token.Source (σ : Type) where
  /-- The number of places. -/
  size : σ → Nat
  /-- The token at a place. -/
  get? : σ → Nat → Option Token

instance : Token.Source (List Token) := ⟨List.length, fun ts i => ts[i]?⟩

instance : Token.Source (Array Token) := ⟨Array.size, fun ts i => ts[i]?⟩

/-- A sequence of tokens and a cursor in it. -/
structure TokenStream where
  tokens : Array Token
  cursor : Nat
deriving DecidableEq, Inhabited

namespace TokenStream

/-- The span of an end of input added behind `last`. Its column counts the characters of `last`
from the column of `last`, whether or not the text holds line breaks. -/
def spanBehind : Option Token → Span
  | none => .origin
  | some last => ⟨last.span.stop, last.span.stop, last.span.line,
      last.span.column + last.text.length⟩

/-- The tokens before the first end of input. -/
def body (ts : List Token) : List Token := ts.takeWhile (!·.isEof)

/-- The first end of input of `ts`, or the one to be added. -/
def closing (ts : List Token) : Token :=
  (ts.find? Token.isEof).getD (.eof (spanBehind ts.getLast?))

/-- The stream of a list of tokens, with the cursor on the first. -/
def ofList (ts : List Token) : TokenStream := ⟨(body ts ++ [closing ts]).toArray, 0⟩

/-- The stream of an array of tokens. -/
def ofArray (ts : Array Token) : TokenStream := ofList ts.toList

/-- The stream of the tokens that stand at the places of a source. -/
def ofSource {σ : Type} [Token.Source σ] (source : σ) : TokenStream :=
  ofList ((List.range (Token.Source.size source)).filterMap (Token.Source.get? source))

/-- The number of tokens, the end of input included. -/
def size (s : TokenStream) : Nat := s.tokens.size

/-- Whether there is nothing but the end of input. -/
def isEmpty (s : TokenStream) : Bool := s.size == 1

/-- The last token, which marks the end of the input. -/
def last (s : TokenStream) : Token := s.tokens.back?.getD default

/-- The token `k` places ahead, where the current token is both one and zero places ahead. Past
the end stands the end of input. -/
def peek (s : TokenStream) (k : Nat) : Token :=
  s.tokens[s.cursor + max k 1 - 1]?.getD s.last

/-- The kind of the token `k` places ahead. -/
def kindAt (s : TokenStream) (k : Nat) : Token.Kind := (s.peek k).kind

/-- The token at an absolute place. -/
def get? (s : TokenStream) (i : Nat) : Option Token := s.tokens[i]?

/-- Move past the current token. The end of input is never passed. -/
def consume (s : TokenStream) : TokenStream :=
  if (s.peek 1).isEof then s else { s with cursor := s.cursor + 1 }

/-- Move past the current token and tell its place, if the cursor is on a token. -/
def take? (s : TokenStream) : Option (Nat × TokenStream) :=
  match s.tokens[s.cursor]? with
  | none => none
  | some t => some (s.cursor, if t.isEof then s else { s with cursor := s.cursor + 1 })

/-- Move to an absolute place, or to the end of input if there is no such place. -/
def seek (s : TokenStream) (i : Nat) : TokenStream :=
  { s with cursor := min i (s.size - 1) }

/-- The number of tokens from the cursor to the end of input. -/
def remaining (s : TokenStream) : Nat := s.size - 1 - s.cursor

/-! ## Lists of tokens -/

section Lists

variable {ts more : List Token} {eof : Token}

theorem body_append (h : ∀ t ∈ ts, t.isEof = false) (more : List Token) :
    body (ts ++ more) = ts ++ body more :=
  List.takeWhile_append_of_pos fun t ht => by simp [h t ht]

theorem body_eq (h : ∀ t ∈ ts, t.isEof = false) : body ts = ts := by
  simpa [body] using body_append h []

theorem body_concat (h : ∀ t ∈ ts, t.isEof = false) (heof : eof.isEof = true) :
    body (ts ++ [eof]) = ts := by
  rw [body_append h, body, List.takeWhile_cons, heof]
  exact List.append_nil ts

theorem find?_isEof_eq_none (h : ∀ t ∈ ts, t.isEof = false) : ts.find? Token.isEof = none :=
  List.find?_eq_none.mpr fun t ht => by simp [h t ht]

theorem closing_eq (h : ∀ t ∈ ts, t.isEof = false) :
    closing ts = .eof (spanBehind ts.getLast?) := by
  rw [closing, find?_isEof_eq_none h]
  rfl

/-- The end of some tokens is not changed by others before them. -/
theorem closing_append (h : ∀ t ∈ ts, t.isEof = false) (hne : more ≠ []) :
    closing (ts ++ more) = closing more := by
  rw [closing, closing, List.find?_append, find?_isEof_eq_none h, Option.none_or,
    List.getLast?_append, List.getLast?_eq_some_getLast hne, Option.some_or]

theorem closing_concat (h : ∀ t ∈ ts, t.isEof = false) (heof : eof.isEof = true) :
    closing (ts ++ [eof]) = eof := by
  rw [closing_append h (List.cons_ne_nil eof []), closing, List.find?_singleton, heof]
  rfl

end Lists

/-- Streams of the same tokens before the end of the input differ in that end only. -/
theorem ofList_eq_iff {ts ts' : List Token} (h : body ts = body ts') :
    ofList ts = ofList ts' ↔ closing ts = closing ts' := by
  simp [ofList, h]

/-! ## New streams -/

theorem filterMap_getElem?_range (ts : List Token) :
    (List.range ts.length).filterMap (fun i => ts[i]?) = ts := by
  induction ts with
  | nil => rfl
  | cons t ts ih =>
    rw [List.length_cons, List.range_succ_eq_map, List.filterMap_cons, List.filterMap_map]
    exact congrArg (t :: ·) ih

/-- A source that has a token at each of its places has the stream of these tokens. -/
theorem ofSource_eq {σ : Type} [Token.Source σ] {source : σ} {ts : List Token}
    (hsize : Token.Source.size source = ts.length)
    (hget : ∀ i, Token.Source.get? source i = ts[i]?) : ofSource source = ofList ts := by
  rw [ofSource, hsize, funext hget, filterMap_getElem?_range]

theorem ofSource_list (ts : List Token) : ofSource ts = ofList ts :=
  ofSource_eq rfl fun _ => rfl

theorem ofSource_array (ts : Array Token) : ofSource ts = ofArray ts :=
  ofSource_eq Array.length_toList.symm fun _ => Array.getElem?_toList.symm

/-- **Tokens behind an end of input do not count.** -/
theorem ofList_cut {eof : Token} (heof : eof.isEof = true) (ts more : List Token) :
    ofList (ts ++ eof :: more) = ofList (ts ++ [eof]) := by
  have hbody (more : List Token) : body (ts ++ eof :: more) = body ts := by
    rw [body, List.takeWhile_append, List.takeWhile_cons_of_neg (by simp [heof]), List.append_nil]
    split
    · rename_i hlen
      exact ((List.takeWhile_prefix _).eq_of_length hlen).symm
    · rfl
  have hfind (more : List Token) :
      (ts ++ eof :: more).find? Token.isEof = (ts.find? Token.isEof).or (some eof) := by
    rw [List.find?_append, List.find?_cons_of_pos heof]
  have hclosing (more : List Token) :
      closing (ts ++ eof :: more) = (ts.find? Token.isEof).getD eof := by
    rw [closing, hfind]
    cases ts.find? Token.isEof <;> rfl
  rw [ofList, hbody, hclosing, ofList, hbody, hclosing]

/-! ## The tokens of a stream -/

theorem toList_tokens_ofList (ts : List Token) :
    (ofList ts).tokens.toList = body ts ++ [closing ts] := rfl

@[simp]
theorem tokens_consume (s : TokenStream) : s.consume.tokens = s.tokens := by
  unfold consume; split <;> rfl

@[simp]
theorem tokens_seek (s : TokenStream) (i : Nat) : (s.seek i).tokens = s.tokens := rfl

end TokenStream

end PipeQuery

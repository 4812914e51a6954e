import PipeQuery.Proofs.Lexer.EndOfInput
import PipeQuery.Proofs.Lexer.Segments
import PipeQuery.Proofs.Parser.Coverage
import PipeQuery.Tree.Source

/-!
# Nodes in their source

The tokens of a node stand one behind the other in its source, with blanks and comments between
them, and the part of the source from the first to the last of them is what the node is said to
cover. This holds of all trees of all sources, those with errors included.

## Main definitions

* `ParseTree.IsSlice`: the part of a source that a node covers
* `ParseTree.InOrder`: nodes that cover parts of a text, one behind the other
* `ParseTree.Sourced`: a tree over the tokens of a source

## Main results

* `Parser.parse_sourced`: the trees of a source are over its tokens
* `ParseTree.Sourced.exists_isSlice`: a node that covers tokens covers the part of the source with
  these tokens
* `Parser.slices_match`: all nodes of all trees
-/

namespace PipeQuery

open Lexer

namespace Subtree

theorem nodesOf_append (xs ys : List Subtree) : nodesOf (xs ++ ys) = nodesOf xs ++ nodesOf ys := by
  induction xs with
  | nil => rfl
  | cons x xs ih => rw [List.cons_append, nodesOf, nodesOf, ih, List.append_assoc]

theorem nodesOf_tokens (is : List Nat) : nodesOf (is.map .token) = [] := by
  induction is with
  | nil => rfl
  | cons i is ih =>
    rw [List.map_cons, nodesOf, ih]
    rfl

end Subtree

namespace ParseTree

/-! ## Nodes and parts of the source -/

/-- The node `id` covers the part `text` of the source, behind `before`: the part starts with the
first token below the node and stops with the last one, the end of the input apart, and it is made
up of the texts of all tokens below the node, with gaps between them. -/
structure IsSlice (t : ParseTree) (source : String) (id : NodeId) (before text after : List Char) :
    Prop where
  source_eq : source.toList = before ++ text ++ after
  sourceText?_eq : t.sourceText? source id = some (String.ofList text)
  first : ∃ first ∈ (t.leaves id).head?, first.span.start = utf8Length before
  last : ∃ last ∈ ((t.leaves id).filter (!·.isEof)).getLast?,
    last.span.stop = utf8Length (before ++ text)
  spread : Spread ((t.leaves id).filter (!·.isEof)) text (t.text id).toList

/-- In the source, behind `past` and before `after`, stands a text in which the nodes `cs` cover
parts, one behind the other. -/
inductive InOrder (t : ParseTree) (source : String) :
    List Char → List NodeId → List Char → List Char → Prop
  | nil (past text after : List Char) : InOrder t source past [] text after
  | cons {past between part rest after : List Char} {c : NodeId} {cs : List NodeId}
    (h : t.IsSlice source c (past ++ between) part (rest ++ after))
    (hr : InOrder t source (past ++ between ++ part) cs rest after) :
    InOrder t source past (c :: cs) (between ++ part ++ rest) after

/-- The nodes among the children of a node that cover tokens. -/
def coveringNodes (t : ParseTree) (id : NodeId) : List NodeId :=
  (t.childNodes id).filter fun c => !(t.node c).span.isEmpty

/-- The tree is over the tokens of the source: each node covers the tokens of its span, and perhaps
the last token behind them. -/
structure Sourced (t : ParseTree) (source : String) : Prop where
  laidOut : LaidOut [] source.toList t.tokens.toList
  covers : ∀ id < t.size, ∃ last, t.Covers id last ∧ (t.node id).span.stop < t.tokens.size ∧
    ∀ i ∈ last, i + 1 = t.tokens.size

variable {t : ParseTree} {source : String} {id c : NodeId} {span : TokenSpan}
  {before text after : List Char}

/-- The tokens of a span. -/
def tokensOf (t : ParseTree) (span : TokenSpan) : List Token :=
  (t.tokens.toList.drop span.start).take span.length

theorem map_token_range' (h : span.stop ≤ t.tokens.size) :
    (List.range' span.start span.length).map t.token = t.tokensOf span := by
  refine List.ext_getElem ?_ fun i hi hi' => ?_
  · simp [tokensOf, TokenSpan.length]
    omega
  · have hlt : span.start + i < t.tokens.size := by
      simp [TokenSpan.length] at hi
      omega
    simp [tokensOf, token, hlt]

theorem start_lt_stop (h : span.isEmpty = false) : span.start < span.stop := by
  simp only [TokenSpan.isEmpty, TokenSpan.length, beq_eq_false_iff_ne] at h
  omega

/-- Only nodes of the tree cover tokens. -/
theorem lt_size_of_span (h : (t.node id).span.isEmpty = false) : id < t.size := by
  by_contra hle
  have hnone : t.nodes[id]? = none := Array.getElem?_eq_none (Nat.le_of_not_lt hle)
  rw [node, hnone] at h
  cases h

theorem head?_tokensOf (h : span.start < span.stop) :
    (t.tokensOf span).head? = t.tokens[span.start]? := by
  have hne : span.length ≠ 0 := by
    rw [TokenSpan.length]
    omega
  rw [tokensOf, List.head?_take, if_neg hne, List.head?_drop, Array.getElem?_toList]

theorem getLast?_tokensOf (h : span.start < span.stop) (hstop : span.stop ≤ t.tokens.size) :
    (t.tokensOf span).getLast? = t.tokens[span.stop - 1]? := by
  have hne : span.length ≠ 0 := by
    rw [TokenSpan.length]
    omega
  have hindex : span.start + (span.length - 1) = span.stop - 1 := by
    rw [TokenSpan.length]
    omega
  have hlt : span.stop - 1 < t.tokens.size := by omega
  rw [tokensOf, List.getLast?_take, if_neg hne, List.getElem?_drop, hindex, Array.getElem?_toList,
    Array.getElem?_eq_getElem hlt]
  rfl

theorem exists_of_mem_tokensOf {token : Token} (h : token ∈ t.tokensOf span) :
    ∃ i < span.stop, t.tokens[i]? = some token := by
  obtain ⟨k, hk⟩ := List.mem_iff_getElem?.mp h
  rw [tokensOf, List.getElem?_take] at hk
  split at hk
  · rename_i hlt
    rw [List.getElem?_drop, Array.getElem?_toList] at hk
    rw [TokenSpan.length] at hlt
    exact ⟨span.start + k, by omega, hk⟩
  · cases hk

/-- The tokens of a span stand between those before and those behind it. -/
theorem toList_tokens_eq (h : span.start ≤ span.stop) : t.tokens.toList =
    t.tokens.toList.take span.start ++ t.tokensOf span ++ t.tokens.toList.drop span.stop := by
  have hdrop : t.tokens.toList.drop span.stop =
      (t.tokens.toList.drop span.start).drop span.length := by
    rw [List.drop_drop, TokenSpan.length, Nat.add_sub_cancel' h]
  rw [hdrop, tokensOf, List.append_assoc, List.take_append_drop, List.take_append_drop]

theorem sourceText?_eq (hne : (t.node id).span.isEmpty = false) {first last : Token}
    (hfirst : t.tokens[(t.node id).span.start]? = some first)
    (hlast : t.tokens[(t.node id).span.stop - 1]? = some last) :
    t.sourceText? source id =
      (slice? source.toList first.span.start last.span.stop).map String.ofList := by
  simp [sourceText?, hne, hfirst, hlast]

theorem sourceText?_eq_none (hempty : (t.node id).span.isEmpty = true) :
    t.sourceText? source id = none := by
  simp [sourceText?, hempty]

namespace Sourced

variable {i j : Nat} {x y : Token}

/-- The tokens of a source stand one behind the other. -/
theorem stop_le_start (h : t.Sourced source) (hij : i < j) (hx : t.tokens[i]? = some x)
    (hy : t.tokens[j]? = some y) : x.span.stop ≤ y.span.start := by
  rw [← Array.getElem?_toList, List.getElem?_eq_some_iff] at hx hy
  obtain ⟨hi, rfl⟩ := hx
  obtain ⟨hj, rfl⟩ := hy
  exact List.pairwise_iff_getElem.mp h.laidOut.pairwise.2 i j hi hj hij

theorem start_le_stop (h : t.Sourced source) (hx : t.tokens[i]? = some x) :
    x.span.start ≤ x.span.stop := by
  obtain ⟨body, last, htokens, -, hstart, hstop, hbody⟩ := h.laidOut.eq_append
  rw [← Array.getElem?_toList, htokens] at hx
  rcases List.mem_append.mp (List.mem_of_getElem? hx) with hx | hx
  · exact Nat.le_of_lt (hbody x hx).2.1
  · obtain rfl := List.mem_singleton.mp hx
    rw [hstart, hstop]

/-- Only the last token is an end of the input. -/
theorem isEof_iff (h : t.Sourced source) (hx : t.tokens[i]? = some x) :
    x.isEof = true ↔ i + 1 = t.tokens.size := by
  obtain ⟨body, last, htokens, hlast, -, -, hbody⟩ := h.laidOut.eq_append
  have hsize : t.tokens.size = body.length + 1 := by
    rw [← Array.length_toList, htokens, List.length_append, List.length_singleton]
  rw [← Array.getElem?_toList, htokens] at hx
  rw [Token.isEof_iff, hsize, Nat.succ_inj]
  rcases Nat.lt_trichotomy i body.length with hlt | rfl | hgt
  · rw [List.getElem?_append_left hlt] at hx
    exact iff_of_false (hbody x (List.mem_of_getElem? hx)).1 (Nat.ne_of_lt hlt)
  · rw [List.getElem?_concat_length] at hx
    cases hx
    exact iff_of_true hlast rfl
  · rw [List.getElem?_eq_none (by simp; omega)] at hx
    cases hx

/-- The tokens below a node are those of its span, and perhaps the end of the input. -/
theorem leaves_eq (h : t.Sourced source) (hid : id < t.size) :
    ∃ last, t.leaves id = t.tokensOf (t.node id).span ++ last ∧ ∀ token ∈ last,
      token.isEof = true := by
  obtain ⟨last, hcovers, hstop, hlast⟩ := h.covers id hid
  refine ⟨last.map t.token, ?_, ?_⟩
  · rw [leaves, hcovers.leafIndices_eq, List.map_append, map_token_range' (Nat.le_of_lt hstop)]
  · intro token htoken
    obtain ⟨i, hi, rfl⟩ := List.mem_map.mp htoken
    have hlt : i < t.tokens.size := by
      rw [← hlast i hi]
      exact Nat.lt_succ_self i
    refine (h.isEof_iff (i := i) ?_).mpr (hlast i hi)
    rw [ParseTree.token, Array.getElem?_eq_getElem hlt]
    rfl

/-- Without the end of the input, the tokens below a node are those of its span. -/
theorem filter_leaves (h : t.Sourced source) (hid : id < t.size) :
    (t.leaves id).filter (!·.isEof) = t.tokensOf (t.node id).span := by
  obtain ⟨last, hleaves, hlast⟩ := h.leaves_eq hid
  obtain ⟨-, -, hstop, -⟩ := h.covers id hid
  have hnil : last.filter (!·.isEof) = [] := by
    rw [List.filter_eq_nil_iff]
    intro token htoken
    rw [hlast token htoken]
    exact Bool.false_ne_true
  rw [hleaves, List.filter_append, hnil, List.append_nil, List.filter_eq_self]
  intro token htoken
  obtain ⟨i, hi, htoken⟩ := exists_of_mem_tokensOf htoken
  have hne : token.isEof ≠ true := fun heof => by
    have hi' := (h.isEof_iff htoken).mp heof
    omega
  simpa using hne

/-- **A node that covers tokens covers the part of the source with these tokens.** -/
theorem exists_isSlice (h : t.Sourced source) (hne : (t.node id).span.isEmpty = false) :
    ∃ before text after, t.IsSlice source id before text after := by
  have hid := lt_size_of_span hne
  have hlt := start_lt_stop hne
  obtain ⟨-, -, hstop, -⟩ := h.covers id hid
  set span := (t.node id).span with hspan
  have hfirst := head?_tokensOf (t := t) hlt
  have hlast := getLast?_tokensOf hlt (Nat.le_of_lt hstop)
  -- A node that covers tokens has a first one and a last one, and there are tokens behind it.
  have hnil : t.tokensOf span ≠ [] := by
    rintro hnil
    rw [hnil, Array.getElem?_eq_getElem (by omega)] at hfirst
    cases hfirst
  have hmore : t.tokens.toList.drop span.stop ≠ [] := by
    rw [ne_eq, List.drop_eq_nil_iff, Array.length_toList]
    omega
  have hlaid := h.laidOut
  rw [toList_tokens_eq (Nat.le_of_lt hlt)] at hlaid
  -- The source is laid out along its tokens, so it falls into three parts at theirs.
  obtain ⟨before, text, after, kept, hsource, hspread, hstart, hend⟩ := hlaid.spread hnil hmore
  rw [hfirst] at hstart
  rw [hlast] at hend
  have hi : t.tokens[span.start]? = some t.tokens[span.start] := Array.getElem?_eq_getElem (by omega)
  have hj : t.tokens[span.stop - 1]? = some t.tokens[span.stop - 1] :=
    Array.getElem?_eq_getElem (by omega)
  have hstart := hstart _ hi
  have hend := hend _ hj
  refine ⟨before, text, after, ?_⟩
  constructor
  case source_eq => exact hsource
  case sourceText?_eq =>
    rw [sourceText?_eq hne hi hj, hstart, hend, hsource, List.nil_append, utf8Length_append,
      slice?_append]
    rfl
  case first =>
    obtain ⟨last, hleaves, -⟩ := h.leaves_eq hid
    refine ⟨_, ?_, hstart⟩
    rw [hleaves, List.head?_append, hfirst, hi]
    rfl
  case last =>
    refine ⟨_, ?_, hend⟩
    rw [h.filter_leaves hid, hlast]
    exact hj
  case spread =>
    rw [ParseTree.text, h.filter_leaves hid, ← hspread.kept_eq]
    exact hspread

/-- The places of the tokens that a node covers. -/
theorem exists_tokens (h : t.Sourced source) (hne : (t.node id).span.isEmpty = false)
    (hs : t.IsSlice source id before text after) :
    (∃ x, t.tokens[(t.node id).span.start]? = some x ∧ x.span.start = utf8Length before) ∧
      ∃ y, t.tokens[(t.node id).span.stop - 1]? = some y ∧
        y.span.stop = utf8Length (before ++ text) := by
  have hid := lt_size_of_span hne
  have hlt := start_lt_stop hne
  obtain ⟨-, -, hstop, -⟩ := h.covers id hid
  obtain ⟨x, hx, hstart⟩ := hs.first
  obtain ⟨y, hy, hend⟩ := hs.last
  obtain ⟨last, hleaves, -⟩ := h.leaves_eq hid
  have hfirst : t.tokens[(t.node id).span.start]? =
      some t.tokens[(t.node id).span.start] := Array.getElem?_eq_getElem (by omega)
  rw [hleaves, List.head?_append, head?_tokensOf hlt, hfirst, Option.some_or] at hx
  rw [h.filter_leaves hid, getLast?_tokensOf hlt (Nat.le_of_lt hstop)] at hy
  exact ⟨⟨x, hfirst.trans hx, hstart⟩, y, hy, hend⟩

section Order

variable {before' text' after' : List Char}

/-- Nodes whose tokens stand one behind the other cover parts that do. -/
theorem slice_le (h : t.Sourced source) (hne : (t.node id).span.isEmpty = false)
    (hs : t.IsSlice source id before text after) (hne' : (t.node c).span.isEmpty = false)
    (hs' : t.IsSlice source c before' text' after')
    (hle : (t.node id).span.stop ≤ (t.node c).span.start) :
    utf8Length (before ++ text) ≤ utf8Length before' := by
  obtain ⟨-, y, hy, hend⟩ := h.exists_tokens hne hs
  obtain ⟨⟨x, hx, hstart⟩, -⟩ := h.exists_tokens hne' hs'
  have hlt := start_lt_stop hne
  rw [← hend, ← hstart]
  exact h.stop_le_start (by omega) hy hx

/-- A node whose tokens are among those of another covers a part of what the other covers. -/
theorem slice_contains (h : t.Sourced source) (hne : (t.node id).span.isEmpty = false)
    (hs : t.IsSlice source id before text after) (hne' : (t.node c).span.isEmpty = false)
    (hs' : t.IsSlice source c before' text' after')
    (hcontains : (t.node id).span.contains (t.node c).span = true) :
    utf8Length before ≤ utf8Length before' ∧
      utf8Length (before' ++ text') ≤ utf8Length (before ++ text) := by
  obtain ⟨⟨x, hx, hstart⟩, y, hy, hend⟩ := h.exists_tokens hne hs
  obtain ⟨⟨x', hx', hstart'⟩, y', hy', hend'⟩ := h.exists_tokens hne' hs'
  have hlt := start_lt_stop hne
  have hlt' := start_lt_stop hne'
  simp only [TokenSpan.contains, Bool.and_eq_true, decide_eq_true_eq] at hcontains
  rw [← hstart, ← hstart', ← hend, ← hend']
  constructor
  · rcases Nat.eq_or_lt_of_le hcontains.1 with heq | hless
    · rw [heq, hx'] at hx
      rw [Option.some.inj hx]
    · exact Nat.le_trans (h.start_le_stop hx) (h.stop_le_start hless hx hx')
  · rcases Nat.eq_or_lt_of_le hcontains.2 with heq | hless
    · rw [← heq, hy'] at hy
      rw [Option.some.inj hy]
    · exact Nat.le_trans (h.stop_le_start (by omega) hy' hy) (h.start_le_stop hy)

end Order

/-- **Nodes cover parts of a text in order**, if their tokens are in order and they cover parts of
it. -/
theorem inOrder (h : t.Sourced source) {cs : List NodeId}
    (hne : ∀ c ∈ cs, (t.node c).span.isEmpty = false)
    (hpair : cs.Pairwise fun c c' => (t.node c).span.stop ≤ (t.node c').span.start)
    {past text after : List Char} (hsource : source.toList = past ++ text ++ after)
    (hinside : ∀ c ∈ cs, ∀ before part rest, t.IsSlice source c before part rest →
      utf8Length past ≤ utf8Length before ∧
        utf8Length (before ++ part) ≤ utf8Length (past ++ text)) :
    t.InOrder source past cs text after := by
  induction cs generalizing past text with
  | nil => exact .nil past text after
  | cons c cs ih =>
    obtain ⟨hc, hcs⟩ := List.forall_mem_cons.mp hne
    obtain ⟨hbehind, hpair⟩ := List.pairwise_cons.mp hpair
    obtain ⟨before, part, rest, hs⟩ := h.exists_isSlice hc
    obtain ⟨hstart, hend⟩ := hinside c List.mem_cons_self before part rest hs
    -- The part of the first node starts behind `past` and stops within the text.
    have hwhole : past ++ (text ++ after) = before ++ (part ++ rest) := by
      rw [← List.append_assoc, ← hsource, hs.source_eq, List.append_assoc]
    obtain ⟨between, rfl, htext⟩ := exists_eq_append_of_le hwhole hstart
    rw [← List.append_assoc] at htext
    have hlength : utf8Length (between ++ part) ≤ utf8Length text := by
      simp only [utf8Length_append] at hend ⊢
      omega
    obtain ⟨more, rfl, rfl⟩ := exists_eq_append_of_le htext.symm hlength
    refine .cons hs (ih hcs hpair ?_ fun c' hc' before' part' rest' hs' => ?_)
    · rw [hsource]
      simp
    · refine ⟨h.slice_le hc hs (hcs c' hc') hs' (hbehind c' hc'), ?_⟩
      have hinside' := (hinside c' (List.mem_cons_of_mem _ hc') before' part' rest' hs').2
      rwa [← List.append_assoc, ← List.append_assoc] at hinside'

end Sourced

end ParseTree

namespace Parser

open Subtree

variable {options : Options} {tokens : List Token} {t : ParseTree} {id : NodeId}

/-- Each node covers the tokens of its span, and the root perhaps the last token behind them. -/
theorem exists_covers (entry : Entry) (h : entry.parse options tokens = .ok t)
    (hid : id < t.size) : ∃ last, t.Covers id last ∧ (t.node id).span.stop < t.tokens.size ∧
      ∀ i ∈ last, i + 1 = t.tokens.size := by
  obtain ⟨l, e, cs, last, n, hx, htile, hlast, -, hn⟩ := parse_root entry h
  obtain ⟨l', span, e', children, hy⟩ := hx.exists_mem_nodes hid
  obtain ⟨_, hnode⟩ := (hx.holds.of_mem_nodes hy).node_eq
  rw [nodes, List.mem_cons] at hy
  rcases hy with hy | hy
  · obtain ⟨rfl, -, rfl, -, -⟩ := Subtree.node.inj hy
    refine ⟨last, hx.covers last hx.root_mem htile, ?_, ?_⟩
    · rw [hnode, ← hn]
      exact Nat.lt_succ_self n
    · intro i hi
      rw [hlast i hi, hn]
  · have hbelow : Subtree.node id l' span e' children ∈ nodesOf cs := by
      rwa [nodesOf_append, nodesOf_tokens, List.append_nil] at hy
    obtain ⟨i, j, -, hj, htiles⟩ := htile.of_mem_nodesOf hbelow
    refine ⟨[], hx.covers_of_tiles (List.mem_cons_of_mem _ hy) htiles, ?_, ?_⟩
    · rw [hnode, htiles.1, ← hn]
      exact Nat.lt_succ_of_le hj
    · exact List.forall_mem_nil _

/-- The tokens that the lexer finds are those of their stream. -/
theorem toList_tokens_of_tokenizeIn {m : Mode} {source : String}
    (h : tokenizeIn m source = .ok tokens) : (TokenStream.ofList tokens).tokens.toList = tokens := by
  obtain ⟨ts, -, -, rfl, -, hts, -⟩ := (reads_of_tokensFrom h).ends
  rw [TokenStream.toList_tokens_ofList, TokenStream.body_concat hts rfl,
    TokenStream.closing_concat hts rfl]

/-- **The trees of a source are over its tokens.** -/
theorem parse_sourced {m : Mode} {source : String} (htokens : tokenizeIn m source = .ok tokens)
    (entry : Entry) (h : entry.parse options tokens = .ok t) : t.Sourced source := by
  constructor
  case laidOut =>
    obtain ⟨-, -, -, -, -, -, -, -, hstream, -⟩ := parse_root entry h
    rw [hstream, toList_tokens_of_tokenizeIn htokens]
    exact tokensFrom_laidOut [] htokens
  case covers => exact fun id hid => exists_covers entry h hid

/-- **Slices of trees match their source.** In whatever mode a source is split into tokens, and as
whatever these are parsed, with errors or without: a node has a part of the source if and only if it
covers a token. The part starts with its first token and stops with its last, the end of the input
apart; it is made up of the texts of all its tokens with gaps between them, and is the text of the
node without the gaps. And the parts of the nodes among its children stand in it one behind the
other. -/
theorem slices_match {m : Mode} {source : String} (htokens : tokenizeIn m source = .ok tokens)
    (entry : Entry) (h : entry.parse options tokens = .ok t) (hid : id < t.size) :
    (t.sourceText? source id = none ↔ (t.node id).span.isEmpty = true) ∧
    ((t.node id).span.isEmpty = true ↔ (t.leaves id).filter (!·.isEof) = []) ∧
    ((t.node id).span.isEmpty = false → ∃ before text after,
      t.IsSlice source id before text after ∧
      t.InOrder source before (t.coveringNodes id) text after) := by
  have hsourced := parse_sourced htokens entry h
  obtain ⟨last, hcovers, -⟩ := hsourced.covers id hid
  refine ⟨?_, ?_, fun hne => ?_⟩
  · refine ⟨fun hnone => ?_, ParseTree.sourceText?_eq_none⟩
    by_contra hne
    obtain ⟨before, text, after, hs⟩ := hsourced.exists_isSlice (Bool.eq_false_iff.mpr hne)
    rw [hs.sourceText?_eq] at hnone
    cases hnone
  · constructor
    · intro hempty
      have hlength : (t.node id).span.length = 0 := by simpa [TokenSpan.isEmpty] using hempty
      rw [hsourced.filter_leaves hid, ParseTree.tokensOf, hlength, List.take_zero]
    · intro hnil
      by_contra hne
      obtain ⟨before, text, after, hs⟩ := hsourced.exists_isSlice (Bool.eq_false_iff.mpr hne)
      obtain ⟨token, htoken, -⟩ := hs.last
      rw [hnil] at htoken
      cases htoken
  · obtain ⟨before, text, after, hs⟩ := hsourced.exists_isSlice hne
    refine ⟨before, text, after, hs, hsourced.inOrder ?_ ?_ hs.source_eq ?_⟩
    · intro c hc
      simpa using (List.mem_filter.mp hc).2
    · exact hcovers.disjoint.filter _
    · intro c hc before' text' after' hs'
      obtain ⟨hmem, hc⟩ := List.mem_filter.mp hc
      exact hsourced.slice_contains hne hs (by simpa using hc) hs' (hcovers.contains c hmem)

/-- In a query with a comma too many and a stray name, where two comments and two lines stand between
the tokens, the source command has two names below it, the second with the comma. -/
theorem slices_match_recovered :
    let source := "from ß, /* x */ ,c // y\n| limit a 5 // z"
    ∃ tokens t, tokenizeIn .command source = .ok tokens ∧
      Entry.parse ⟨20, .recover⟩ tokens .statement = .ok t ∧ t.isValid = false ∧
      t.sourceText? source 3 = some "from ß, /* x */ ,c" ∧ t.text 3 = "fromß,,c" ∧
      ∃ before text after, t.IsSlice source 3 before text after ∧
        t.InOrder source before [4, 5] text after := by
  intro source
  let tokens : List Token := [⟨.fromCmd, "from", ⟨0, 4, 1, 1⟩⟩, ⟨.sourceName, "ß", ⟨5, 7, 1, 6⟩⟩,
    ⟨.comma, ",", ⟨7, 8, 1, 7⟩⟩, ⟨.comma, ",", ⟨17, 18, 1, 17⟩⟩,
    ⟨.sourceName, "c", ⟨18, 19, 1, 18⟩⟩, ⟨.pipe, "|", ⟨25, 26, 2, 1⟩⟩,
    ⟨.limitCmd, "limit", ⟨27, 32, 2, 3⟩⟩, ⟨.name, "a", ⟨33, 34, 2, 9⟩⟩,
    ⟨.integer, "5", ⟨35, 36, 2, 11⟩⟩, .eof ⟨41, 41, 2, 17⟩]
  have htokens : tokenizeIn .command source = .ok tokens := by decide +kernel
  obtain ⟨t, h, hvalid, htext, hkept, hsize, hne, hnodes⟩ :
      ∃ t, Entry.parse ⟨20, .recover⟩ tokens .statement = .ok t ∧ t.isValid = false ∧
        t.sourceText? source 3 = some "from ß, /* x */ ,c" ∧ t.text 3 = "fromß,,c" ∧
        3 < t.size ∧ (t.node 3).span.isEmpty = false ∧ t.coveringNodes 3 = [4, 5] := by
    decide +kernel
  refine ⟨tokens, t, htokens, h, hvalid, htext, hkept, ?_⟩
  have hslice := (slices_match htokens .statement h hsize).2.2 hne
  rwa [hnodes] at hslice

end Parser

end PipeQuery

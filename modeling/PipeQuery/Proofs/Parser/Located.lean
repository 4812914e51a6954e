import Mathlib.Data.List.Pairwise
import PipeQuery.Proofs.Parser.Course
import PipeQuery.Proofs.Parser.OneTree

/-!
# Where the errors of a tree are

No two errors are met at one token, since a parse recovers until the next token is matched. So the
errors of a tree are met in the order of their tokens. Each of them stands at one node, which is of
the rule that met it and spans its place, and tells of the token that was found there.

## Main definitions

* `Ordered`: the errors met so far are in order, and the next one will be behind them
* `Located`: an error at a node of its rule, which spans the place of the error

## Main results

* `ordered_live`, `located_live`: what the acts of a parse keep of this
* `diagnostics_located`: the errors of a tree, in order and at their places
-/

namespace PipeQuery.Parser

open Token (Kind)

variable {keeps : Prop} {s s' : State} {options : Options} {tokens : List Token} {t : ParseTree}
  {id : NodeId} {l : Label} {span : TokenSpan} {e : SyntaxError} {n : Node}

/-! ## The order of the errors -/

/-- The errors met so far are in order. The next one will be behind them. -/
structure Ordered (s : State) : Prop where
  reports : s.arena.Reports
  sorted : s.arena.errors.Pairwise fun e e' => e.index < e'.index
  behind : ∀ e ∈ s.arena.errors, e.index ≤ s.cursor
  before : s.recovering = false → ∀ e ∈ s.arena.errors, e.index < s.cursor

theorem ordered_start (stream : TokenStream) : Ordered (.start stream) :=
  ⟨Arena.reports_empty, .nil, fun _ he => (List.not_mem_nil he).elim,
    fun _ _ he => (List.not_mem_nil he).elim⟩

theorem Ordered.quiet (h : Ordered s) (hq : Quiet s s') : Ordered s' := by
  have herrors := hq.errors.errors_eq
  constructor
  case reports => exact h.reports.congr hq.errors
  case sorted => exact herrors ▸ h.sorted
  case behind =>
    rw [herrors, hq.cursor_eq]
    exact h.behind
  case before =>
    rw [herrors, hq.cursor_eq, hq.recovering_eq]
    exact h.before

/-- A token is read: the errors stay behind the cursor. -/
theorem Ordered.advance (h : Ordered s) (herrors : s.arena.SameErrors s'.arena)
    (hcursor : s'.cursor = s.cursor + 1) : Ordered s' := by
  have heq := herrors.errors_eq
  have hlt : ∀ e ∈ s'.arena.errors, e.index < s'.cursor := by
    rw [heq, hcursor]
    exact fun e he => Nat.lt_succ_of_le (h.behind e he)
  constructor
  case reports => exact h.reports.congr herrors
  case sorted => exact heq ▸ h.sorted
  case behind => exact fun e he => Nat.le_of_lt (hlt e he)
  case before => exact fun _ => hlt

/-- **The errors are met in the order of their tokens.** -/
theorem ordered_live (keeps : Prop) : Live keeps Ordered := by
  refine Live.of_quiet ?_ ?_ ?_ ?_
  · exact fun hq h => h.quiet hq
  · intro s h hs hk
    exact h.advance (s.arena.sameErrors_push s.node _) (cursor_consume hs hk)
  · intro s id n e h _ hr _ he _
    -- The parse was not recovering, so all errors are before the current token.
    have hlt := h.before hr
    have hmem : ∀ e' ∈ (s.arena.attach id e).errors, e' ∈ s.arena.errors ∨ e' = e := by
      intro e' he'
      rcases Arena.errors_attach h.reports id e with hsame | hnew
      · exact .inl (hsame ▸ he')
      · rw [hnew, List.mem_append, List.mem_singleton] at he'
        exact he'
    constructor
    case reports => exact h.reports.attach id e
    case sorted =>
      show (s.arena.attach id e).errors.Pairwise _
      rcases Arena.errors_attach h.reports id e with hsame | hnew
      · exact hsame ▸ h.sorted
      · rw [hnew, List.pairwise_append]
        refine ⟨h.sorted, List.pairwise_singleton _ _, fun e₁ h₁ e₂ h₂ => ?_⟩
        rw [List.mem_singleton.mp h₂, he.index_eq]
        exact hlt e₁ h₁
    case behind =>
      intro e' he'
      rcases hmem e' he' with hold | rfl
      · exact h.behind e' hold
      · exact Nat.le_of_eq he.index_eq
    case before => exact fun hr => by cases hr
  · intro s h hs _ hk id _
    exact h.advance (s.arena.sameErrors_push id _) (cursor_consume hs hk)

/-! ## The places of the errors -/

/-- An error at the place `id`, at a node with this label and span. -/
structure Located (s : State) (id : NodeId) (l : Label) (span : TokenSpan) (e : SyntaxError) :
    Prop where
  rule_eq : l.rule = e.rule
  start_le : span.start ≤ e.index
  le_stop : e.index ≤ span.stop ∨ id ∈ s.frames.map Frame.node
  index_le : e.index ≤ s.cursor
  token_eq : s.stream.tokens[e.index]? = some e.token
  unexpected : e.token.kind ∉ e.expected

/-- The parse goes on, with all nodes open that were open before. -/
theorem Located.advance (h : Located s id l span e) (hadv : Advances s.stream s'.stream)
    (hframes : id ∈ s.frames.map Frame.node → id ∈ s'.frames.map Frame.node) :
    Located s' id l span e := by
  constructor
  case rule_eq => exact h.rule_eq
  case start_le => exact h.start_le
  case le_stop => exact h.le_stop.imp_right hframes
  case index_le => exact Nat.le_trans h.index_le hadv.cursor_le
  case token_eq =>
    rw [hadv.tokens_eq]
    exact h.token_eq
  case unexpected => exact h.unexpected

/-- The node is closed at the cursor. -/
theorem Located.close (h : Located s id l span e) (hstream : s'.stream = s.stream) :
    Located s' id l ⟨span.start, max s.cursor span.start⟩ e := by
  constructor
  case rule_eq => exact h.rule_eq
  case start_le => exact h.start_le
  case le_stop => exact .inl (Nat.le_trans h.index_le (Nat.le_max_left _ _))
  case index_le =>
    rw [State.cursor, hstream]
    exact h.index_le
  case token_eq =>
    rw [hstream]
    exact h.token_eq
  case unexpected => exact h.unexpected

theorem located_consume (h : s.arena.EachError (Located s)) :
    s.consume.arena.EachError (Located s.consume) := by
  intro id n e hn he
  have hpush := h.push s.node (.token s.cursor) id n e hn he
  exact hpush.advance (advances_consume s.stream) fun h => h

/-- Only the node that is closed is no longer open. -/
theorem Located.close_top (h : Located s id l span e) {f : Frame} {rest : List Frame}
    (hframes : s.frames = f :: rest) (hne : f.node ≠ id) (hstream : s'.stream = s.stream)
    (hrest : ∀ i ∈ rest.map Frame.node, i ∈ s'.frames.map Frame.node) :
    Located s' id l span e := by
  refine h.advance ?_ fun hmem => hrest id ?_
  · rw [hstream]
    exact .refl _
  · rw [hframes, List.map_cons, List.mem_cons] at hmem
    exact hmem.resolve_left hne.symm

theorem located_leave (h : s.arena.EachError (Located s)) :
    s.leave.arena.EachError (Located s.leave) := by
  cases hframes : s.frames with
  | nil =>
    have hleave : s.leave = s := by rw [State.leave, hframes]
    rwa [hleave]
  | cons f rest =>
    rw [State.leave, hframes]
    exact Arena.EachError.close h (fun l span e he => he.close rfl) fun i l span e hne he =>
      he.close_top hframes hne rfl fun _ h => h

theorem located_wrap (h : s.arena.EachError (Located s)) (label : Label) :
    (s.wrap label).arena.EachError (Located (s.wrap label)) := by
  cases hframes : s.frames with
  | nil =>
    have hwrap : s.wrap label = s := by rw [State.wrap, hframes]
    rwa [hwrap]
  | cons f rest =>
    rw [State.wrap, hframes]
    exact Arena.EachError.wrap h (fun l span e he => he.close rfl) fun i l span e hne he =>
      he.close_top hframes hne rfl fun _ h => List.mem_cons_of_mem _ h

/-- **Each error stands at a node of its rule**, which spans its place. -/
theorem located_live (keeps : Prop) : Live keeps fun s => s.arena.EachError (Located s) := by
  constructor
  case relabel =>
    intro s label n h hn hl
    have hrelabel : (s.arena.relabel s.node label).EachError (Located s) := by
      refine h.relabel hn fun span e he => ?_
      exact ⟨hl.trans he.rule_eq, he.start_le, he.le_stop, he.index_le, he.token_eq, he.unexpected⟩
    intro id m e hm he
    exact (hrelabel id m e hm he).advance (.refl _) fun h => h
  case wrap => exact fun label h => located_wrap h label
  case consume => exact fun h _ _ => located_consume h
  case report =>
    intro s id n e h hs _ hn he _
    -- A new error is the one place where something has to be shown: its node is open at the cursor.
    have hattach : (s.arena.attach id e).EachError (Located s) := by
      refine h.attach hn.node_eq ?_
      constructor
      case rule_eq => exact hn.rule_eq
      case start_le => exact he.index_eq ▸ hn.start_le
      case le_stop => exact he.index_eq ▸ hn.stays.symm
      case index_le => exact Nat.le_of_eq he.index_eq
      case token_eq =>
        rw [he.index_eq, he.token_eq]
        exact hs.getElem?_cursor
      case unexpected =>
        rw [he.token_eq]
        exact Bool.eq_false_iff.mp he.unexpected
    intro id m e hm he
    exact (hattach id m e hm he).advance (.refl _) fun h => h
  case discard =>
    intro s h _ _ _ id _ i n e hn he
    exact (h.push id (.discarded s.cursor) i n e hn he).advance (advances_consume s.stream)
      fun h => h
  case close =>
    intro s id h
    exact Arena.EachError.close h (fun l span e he => he.close rfl) fun i l span e _ he =>
      he.advance (.refl _) fun h => h
  case enter =>
    intro s r floor h id n e hn he
    exact (h.openNode (.ofRule r) _ s.cursor id n e hn he).advance (.refl _)
      fun h => List.mem_cons_of_mem _ h
  case leave => exact located_leave

/-! ## The errors of a tree -/

/-- Errors that are in order are told of in this order. -/
theorem Yields.diagnostics_eq (h : Yields s t)
    (hsorted : s.arena.errors.Pairwise fun e e' => e.index < e'.index) :
    t.diagnostics = s.arena.errors := by
  rw [ParseTree.diagnostics, h.errors_eq]
  refine List.mergeSort_of_pairwise (hsorted.imp fun hlt => ?_)
  exact decide_eq_true (Nat.le_of_lt hlt)

/-- Errors in order are the errors of different nodes. -/
theorem eq_of_errorAt {a : Arena} (hr : a.Reports)
    (hsorted : a.errors.Pairwise fun e e' => e.index < e'.index) {i j : NodeId}
    (hi : a.errorAt i = some e) (hj : a.errorAt j = some e) : i = j := by
  have hmem {k : NodeId} (hk : a.errorAt k = some e) : k ∈ a.reported.toList := by
    rw [Array.mem_toList_iff, hr.mem_iff, hk]
    rfl
  let differ (i j : NodeId) : Prop := ¬ (a.errorAt i = some e ∧ a.errorAt j = some e)
  have : Std.Symm differ := ⟨fun _ _ h h' => h h'.symm⟩
  have hdiffer : a.reported.toList.Pairwise differ :=
    (List.pairwise_filterMap.mp hsorted).imp fun h ⟨hi, hj⟩ => Nat.lt_irrefl _ (h e hi e hj)
  by_contra hne
  exact hdiffer.forall (hmem hi) (hmem hj) hne ⟨hi, hj⟩

/-- The errors of the state that a tree is taken from are in order. The end of the input may be
matched at the place of the last. -/
theorem parse_sorted {entry : Entry} (h : entry.parse options tokens = .ok t) :
    ∃ s, Yields s t ∧ s.arena.errors.Pairwise fun e e' => e.index < e'.index := by
  refine (ordered_live entry.Keeps).parse (fun _ hs => hs.sorted) (fun u hu => ?_)
    (ordered_start _) h
  have herrors := (u.arena.sameErrors_push u.node (.token u.cursor)).trans
    (sameErrors_leave u.consume)
  exact herrors.errors_eq ▸ hu.sorted

theorem parse_located {entry : Entry} (h : entry.parse options tokens = .ok t) :
    ∃ s, Yields s t ∧ s.arena.EachError (Located s) :=
  (located_live entry.Keeps).parse (fun _ hs => hs)
    (fun _ hu => located_leave (located_consume hu)) Arena.eachError_empty h

/-- **The errors of a tree are in order, and at their places.** They are told of in the order in
which they were met, which is the order of their tokens, no two at one token. Each stands at one
node of the tree, which is of the rule that met it and spans its place; and it tells of the token
there, which it did not expect. -/
theorem diagnostics_located (entry : Entry) (h : entry.parse options tokens = .ok t) :
    t.diagnostics = t.reported.toList.filterMap (fun id => (t.node id).error) ∧
    t.diagnostics.Pairwise (fun e e' => e.index < e'.index) ∧
    ∀ e ∈ t.diagnostics,
      (∃ id ∈ t.preorder t.root, (t.node id).error = some e ∧
        (∀ id', (t.node id').error = some e → id' = id) ∧ t.rule id = e.rule ∧
        (t.node id).span.start ≤ e.index ∧ e.index ≤ (t.node id).span.stop) ∧
      t.tokens[e.index]? = some e.token ∧ e.token.kind ∉ e.expected := by
  obtain ⟨x, hx, -⟩ := parse_leafIndices entry h
  obtain ⟨s, hs, hlocated⟩ := parse_located h
  obtain ⟨s', hs', hsorted⟩ := parse_sorted h
  rw [← hs'.errors_eq, hs.errors_eq] at hsorted
  have hdiagnostics := hs.diagnostics_eq hsorted
  refine ⟨hdiagnostics.trans hs.errors_eq.symm, hdiagnostics ▸ hsorted, fun e he => ?_⟩
  obtain ⟨id, herror⟩ := hs.mem_diagnostics.mp he
  obtain ⟨n, hn, hne⟩ := Option.bind_eq_some_iff.mp herror
  have hnode : t.node id = n := by
    rw [ParseTree.node, hs.nodes_eq, hn]
    rfl
  have hplace := hlocated id n e hn hne
  have hstop : e.index ≤ n.span.stop := by
    -- No rule is open at the end, so the node was closed.
    refine hplace.le_stop.resolve_right ?_
    rw [hs.frames_eq]
    exact List.not_mem_nil
  have hlt : id < t.size := by
    rw [ParseTree.size, hs.nodes_eq]
    exact (Array.getElem?_eq_some_iff.mp hn).1
  refine ⟨⟨id, hx.preorder_perm.mem_iff.mpr (List.mem_range.mpr hlt), ?_, fun id' he' => ?_, ?_⟩,
    hs.tokens_eq ▸ hplace.token_eq, hplace.unexpected⟩
  · exact hnode ▸ hne
  · rw [hs.error_eq] at he'
    exact eq_of_errorAt hs.reports hsorted he' herror
  · rw [ParseTree.rule, ParseTree.label, hnode]
    exact ⟨hplace.rule_eq, hplace.start_le, hstop⟩

/-- In `from s from, | limit a 1` two errors are met, one behind the stage and one at the stray
name. -/
theorem diagnostics_located_two :
    ∃ t, Entry.parse ⟨20, .recover⟩ ([Kind.fromCmd, .sourceName, .fromCmd, .comma, .pipe, .limitCmd,
      .name, .integer].map Token.ofKind) .statement = .ok t ∧
      t.diagnostics.map SyntaxError.index = [2, 6] ∧
      ∀ e ∈ t.diagnostics, ∃ id ∈ t.preorder t.root, t.rule id = e.rule ∧
        (t.node id).span.start ≤ e.index ∧ e.index ≤ (t.node id).span.stop := by
  obtain ⟨t, h, hindex⟩ : ∃ t, Entry.parse ⟨20, .recover⟩ ([Kind.fromCmd, .sourceName, .fromCmd,
      .comma, .pipe, .limitCmd, .name, .integer].map Token.ofKind) .statement = .ok t ∧
      (t.reported.toList.filterMap fun id => (t.node id).error).map SyntaxError.index = [2, 6] := by
    decide +kernel
  obtain ⟨horder, -, hplaces⟩ := diagnostics_located .statement h
  refine ⟨t, h, horder ▸ hindex, fun e he => ?_⟩
  obtain ⟨⟨id, hid, -, -, hrule, hstart, hstop⟩, -⟩ := hplaces e he
  exact ⟨id, hid, hrule, hstart, hstop⟩

end PipeQuery.Parser

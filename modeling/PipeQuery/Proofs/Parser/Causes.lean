import PipeQuery.Program.Run
import PipeQuery.Proofs.Parser.Course
import PipeQuery.Proofs.Parser.OneTree

/-!
# No token is dropped without a cause

A token is dropped only while a parse recovers from an error, and it recovers until the next token
is matched. So whatever is dropped stands behind an error, and nothing between the two was matched.
In particular a tree that dropped a token has an error, and a tree without errors is valid.

## Main definitions

* `Blamed`: a state that recovers, or dropped a token, has met an error
* `Arena.Accounts`: an error with no token but dropped ones between it and a place
* `Explained`: a state in which an error accounts for each token dropped

## Main results

* `blamed_live`, `explained_live`: what the acts of a parse keep of this
* `isValid_iff_diagnostics`: a tree is valid if it has no errors
* `discards_explained`: each token dropped stands behind an error, with no token matched between
-/

namespace PipeQuery

/-- There is an error before the place `c`, or at it, and all tokens between were dropped. -/
def Arena.Accounts (a : Arena) (c : Nat) : Prop :=
  ∃ id e, a.errorAt id = some e ∧ e.index ≤ c ∧ ∀ k, e.index ≤ k → k < c → a.Discards k

namespace Parser

open Token (Kind)

variable {keeps : Prop} {s s' : State} {options : Options} {tokens : List Token} {t : ParseTree}

/-! ## Errors of states that recover -/

/-- A state that recovers, or dropped a token, has met an error. -/
def Blamed (s : State) : Prop :=
  (s.recovering = true ∨ ∃ j, s.arena.Discards j) → ∃ id e, s.arena.errorAt id = some e

theorem Blamed.quiet (h : Blamed s) (hq : Quiet s s') : Blamed s' := by
  intro hs'
  rw [hq.recovering_eq] at hs'
  simp only [hq.discards.discards_iff, hq.errors.errorAt_eq] at hs' ⊢
  exact h hs'

theorem Blamed.consume (h : Blamed s) : Blamed s.consume := by
  have herrors := s.arena.sameErrors_push s.node (.token s.cursor)
  have hdiscards : s.arena.SameDiscards s.consume.arena := s.arena.sameDiscards_push s.node rfl
  rintro (hr | ⟨j, hj⟩)
  · cases hr
  · obtain ⟨id, e, he⟩ := h (.inr ⟨j, hdiscards.discards_iff.mp hj⟩)
    exact ⟨id, e, (herrors.errorAt_eq id).trans he⟩

/-- **A state that recovers, or dropped a token, has met an error.** -/
theorem blamed_live (keeps : Prop) : Live keeps Blamed := by
  refine Live.of_quiet ?_ ?_ ?_ ?_
  · exact fun hq h => h.quiet hq
  · exact fun h _ _ => h.consume
  · intro s id n e h _ _ hn _ _ _
    have hid : id < s.arena.size := (Array.getElem?_eq_some_iff.mp hn.node_eq).1
    -- If the node has an error already, it keeps that one.
    cases he : s.arena.errorAt id with
    | none => exact ⟨id, e, Arena.errorAt_attach_self hid he e⟩
    | some e' => exact ⟨id, e', Arena.errorAt_attach_of_some he id e⟩
  · intro s h _ hr _ id _ _
    obtain ⟨i, e, he⟩ := h (.inl hr)
    exact ⟨i, e, ((s.arena.sameErrors_push id _).errorAt_eq i).trans he⟩

/-! ## Tokens between an error and a place -/

theorem accounts_mono {a b : Arena} {c : Nat} (h : a.Accounts c)
    (herrors : ∀ id e, a.errorAt id = some e → b.errorAt id = some e)
    (hdiscards : ∀ k, a.Discards k → b.Discards k) : b.Accounts c := by
  obtain ⟨id, e, he, hle, hk⟩ := h
  exact ⟨id, e, herrors id e he, hle, fun k hlow hhigh => hdiscards k (hk k hlow hhigh)⟩

/-- An error accounts for each token that was dropped. While the parse recovers, one accounts for
the next, if there is any. -/
structure Explained (s : State) : Prop where
  dropped : ∀ j, s.arena.Discards j → s.arena.Accounts j
  recovering : s.recovering = true → s.kindAt 1 = .endOfInput ∨ s.arena.Accounts s.cursor

theorem Explained.quiet (h : Explained s) (hq : Quiet s s') : Explained s' := by
  have haccounts (c : Nat) (hc : s.arena.Accounts c) : s'.arena.Accounts c :=
    accounts_mono hc (fun id e he => (hq.errors.errorAt_eq id).trans he)
      fun _ => hq.discards.discards_iff.mpr
  constructor
  case dropped => exact fun j hj => haccounts j (h.dropped j (hq.discards.discards_iff.mp hj))
  case recovering =>
    rw [hq.recovering_eq, hq.cursor_eq, hq.kindAt_eq]
    exact fun hr => (h.recovering hr).imp_right (haccounts _)

theorem Explained.consume (h : Explained s) : Explained s.consume := by
  have herrors := s.arena.sameErrors_push s.node (.token s.cursor)
  have hdiscards : s.arena.SameDiscards s.consume.arena := s.arena.sameDiscards_push s.node rfl
  constructor
  case dropped =>
    intro j hj
    exact accounts_mono (h.dropped j (hdiscards.discards_iff.mp hj))
      (fun id e he => (herrors.errorAt_eq id).trans he) fun _ => hdiscards.discards_iff.mpr
  case recovering => exact fun hr => by cases hr

/-- An error that is met at a node without errors accounts for the current token. -/
theorem Explained.report (h : Explained s) {id : NodeId} {n : Node} {e : SyntaxError}
    (hn : Hosts s id n e.rule) (he : e.index = s.cursor)
    (hkeeps : s.kindAt 1 = .endOfInput ∨ n.error = none) :
    Explained { s.raise id e with lastError := some e } := by
  have hdiscards := s.arena.sameDiscards_attach id e
  constructor
  case dropped =>
    intro j hj
    exact accounts_mono (h.dropped j (hdiscards.discards_iff.mp hj))
      (fun i e' hi => Arena.errorAt_attach_of_some hi id e) fun _ => hdiscards.discards_iff.mpr
  case recovering =>
    intro _
    refine hkeeps.imp_right fun hnone => ?_
    have hid : id < s.arena.size := (Array.getElem?_eq_some_iff.mp hn.node_eq).1
    have herror : s.arena.errorAt id = none := by
      rw [Arena.errorAt, hn.node_eq]
      exact hnone
    refine ⟨id, e, Arena.errorAt_attach_self hid herror e, Nat.le_of_eq he, fun k hlow hhigh => ?_⟩
    rw [he] at hlow
    exact absurd hhigh (Nat.not_lt_of_le hlow)

/-- The token that is dropped is accounted for, and so is the one behind it. -/
theorem Explained.discard (h : Explained s) (hs : s.stream.Proper) (hr : s.recovering = true)
    (hk : s.kindAt 1 ≠ .endOfInput) {id : NodeId} (hid : id < s.arena.size) :
    Explained (s.discard id) := by
  have hcursor : (s.discard id).cursor = s.cursor + 1 := cursor_consume hs hk
  have hdiscards (k : Nat) : (s.discard id).arena.Discards k ↔ s.arena.Discards k ∨ k = s.cursor :=
    Arena.discards_push_iff hid
  have haccounts (c : Nat) (hc : s.arena.Accounts c) : (s.discard id).arena.Accounts c :=
    accounts_mono hc
      (fun i e he => ((s.arena.sameErrors_push id _).errorAt_eq i).trans he)
      fun k hk => (hdiscards k).mpr (.inl hk)
  have hcurrent := haccounts _ ((h.recovering hr).resolve_left hk)
  constructor
  case dropped =>
    intro j hj
    rcases (hdiscards j).mp hj with hj | rfl
    · exact haccounts j (h.dropped j hj)
    · exact hcurrent
  case recovering =>
    -- The same error reaches over the token that is dropped now.
    intro _
    obtain ⟨i, e, he, hle, hbetween⟩ := hcurrent
    refine .inr ⟨i, e, he, ?_, fun k hlow hhigh => ?_⟩
    · rw [hcursor]
      exact Nat.le_succ_of_le hle
    · rw [hcursor] at hhigh
      rcases Nat.lt_succ_iff_lt_or_eq.mp hhigh with hlt | heq
      · exact hbetween k hlow hlt
      · exact (hdiscards k).mpr (.inr heq)

/-- **An error accounts for each token that was dropped**, if the errors that are met are kept. -/
theorem explained_live (hkeeps : keeps) : Live keeps Explained := by
  refine Live.of_quiet ?_ ?_ ?_ ?_
  · exact fun hq h => h.quiet hq
  · exact fun h _ _ => h.consume
  · exact fun h _ _ hn he hc => h.report hn he.index_eq ((hc hkeeps).imp_left he.kindAt_eq)
  · exact fun h hs hr hk _ hid => h.discard hs hr hk hid

/-! ## The tokens dropped in a tree -/

theorem Yields.discards_iff (h : Yields s t) {x : Subtree} (hx : t.IsWhole x) {j : Nat} :
    t.Discards j ↔ s.arena.Discards j := by
  have hmem (id : NodeId) : Slot.discarded j ∈ t.children id ↔ j ∈ s.arena.discardsAt id := by
    rw [← h.discards_eq, Node.mem_discards, ParseTree.children]
  constructor
  · rintro ⟨id, -, hj⟩
    exact ⟨id, (hmem id).mp hj⟩
  · rintro ⟨id, hj⟩
    refine ⟨id, hx.preorder_perm.mem_iff.mpr (List.mem_range.mpr ?_), (hmem id).mpr hj⟩
    apply Nat.lt_of_not_le
    intro hle
    rw [Arena.discardsAt, ← h.nodes_eq, Array.getElem?_eq_none hle] at hj
    cases hj

theorem not_discards_empty (j : Nat) : ¬ Arena.empty.Discards j := fun ⟨_, hj⟩ => by cases hj

theorem blamed_start (stream : TokenStream) : Blamed (.start stream) := by
  rintro (hr | ⟨j, hj⟩)
  · cases hr
  · exact absurd hj (not_discards_empty j)

theorem explained_start (stream : TokenStream) : Explained (.start stream) :=
  ⟨fun j hj => absurd hj (not_discards_empty j), fun hr => by cases hr⟩

/-- A tree that dropped a token has an error. -/
theorem parse_blamed {entry : Entry} (h : entry.parse options tokens = .ok t) :
    ∃ s, Yields s t ∧ Blamed s :=
  (blamed_live entry.Keeps).parse (fun _ hs => hs) (fun _ hu => hu.consume.quiet (quiet_leave _))
    (blamed_start _) h

/-- **A tree is valid if it has no errors**, and only then. So the exit status of a run tells
whether the tree that it shows is valid, and a tree that dropped a token has an error. -/
theorem isValid_iff_diagnostics (entry : Entry) (h : entry.parse options tokens = .ok t) :
    (t.isValid = true ↔ t.diagnostics = []) ∧
    (∀ settings quiet, (showTree settings quiet t).status = 0 ↔ t.isValid = true) ∧
    ((∃ j, t.Discards j) → t.diagnostics ≠ []) := by
  obtain ⟨x, hx, -⟩ := parse_leafIndices entry h
  obtain ⟨s, hs, hblamed⟩ := parse_blamed h
  have hdiscards : (∃ j, t.Discards j) → t.diagnostics ≠ [] := by
    rintro ⟨j, hj⟩ hnil
    obtain ⟨id, e, he⟩ := hblamed (.inr ⟨j, (hs.discards_iff hx).mp hj⟩)
    have hmem := hs.mem_diagnostics.mpr ⟨id, he⟩
    rw [hnil] at hmem
    exact List.not_mem_nil hmem
  have hiff : t.isValid = true ↔ t.diagnostics = [] := by
    rw [ParseTree.isValid_iff]
    constructor
    · -- All nodes of the arena are in the tree, so no error is missed.
      rintro ⟨hnone, -⟩
      refine List.eq_nil_iff_forall_not_mem.mpr fun e he => ?_
      obtain ⟨id, he⟩ := hs.mem_diagnostics.mp he
      have hlt : id < t.size := by
        have hreported := (hs.reports.mem_iff id).mpr (by rw [he]; rfl)
        rw [ParseTree.size, hs.nodes_eq]
        exact hs.reports.lt_size hreported
      have hnone := hnone id (hx.preorder_perm.mem_iff.mpr (List.mem_range.mpr hlt))
      rw [hs.error_eq, he] at hnone
      cases hnone
    · intro hnil
      refine ⟨fun id _ => ?_, fun j hj => hdiscards ⟨j, hj⟩ hnil⟩
      rw [hs.error_eq]
      refine Option.eq_none_iff_forall_ne_some.mpr fun e he => ?_
      have hmem := hs.mem_diagnostics.mpr ⟨id, he⟩
      rw [hnil] at hmem
      exact List.not_mem_nil hmem
  refine ⟨hiff, fun settings quiet => ?_, hdiscards⟩
  rw [hiff, ← List.isEmpty_iff]
  show (if t.diagnostics.isEmpty = true then 0 else 1) = 0 ↔ _
  split
  · rename_i hempty
    exact iff_of_true rfl hempty
  · rename_i hempty
    exact iff_of_false Nat.one_ne_zero hempty

/-- In `from s from, | limit a 1` tokens are dropped, and errors tell of them. -/
theorem isValid_iff_diagnostics_dropped :
    ∃ t, Entry.parse ⟨20, .recover⟩ ([Kind.fromCmd, .sourceName, .fromCmd, .comma, .pipe, .limitCmd,
      .name, .integer].map Token.ofKind) .statement = .ok t ∧ t.Discards 2 ∧ t.isValid = false ∧
      t.diagnostics ≠ [] := by
  obtain ⟨t, h, hj, hv⟩ : ∃ t, Entry.parse ⟨20, .recover⟩ ([Kind.fromCmd, .sourceName, .fromCmd,
      .comma, .pipe, .limitCmd, .name, .integer].map Token.ofKind) .statement = .ok t ∧
      t.Discards 2 ∧ t.isValid = false := by
    decide +kernel
  exact ⟨t, h, hj, hv, (isValid_iff_diagnostics .statement h).2.2 ⟨2, hj⟩⟩

/-- An error accounts for each token that was dropped in a tree. -/
theorem parse_explained {entry : Entry} (hkeeps : entry.Keeps)
    (h : entry.parse options tokens = .ok t) : ∃ s, Yields s t ∧ Explained s :=
  (explained_live hkeeps).parse (fun _ hs => hs) (fun _ hu => hu.consume.quiet (quiet_leave _))
    (explained_start _) h

/-- **Each token dropped stands behind an error, with no token matched between.** For each token
that was dropped there is an error before it, or at it, and all tokens from the error up to it were
dropped as well. An expression is not to have a floor so high that the floor is an error. -/
theorem discards_explained (entry : Entry) (hkeeps : entry.Keeps)
    (h : entry.parse options tokens = .ok t) (j : Nat) (hj : t.Discards j) :
    ∃ e ∈ t.diagnostics, e.index ≤ j ∧ ∀ k, e.index ≤ k → k ≤ j → t.Discards k := by
  obtain ⟨x, hx, -⟩ := parse_leafIndices entry h
  obtain ⟨s, hs, hexplained⟩ := parse_explained hkeeps h
  obtain ⟨id, e, he, hle, hbetween⟩ := hexplained.dropped j ((hs.discards_iff hx).mp hj)
  refine ⟨e, hs.mem_diagnostics.mpr ⟨id, he⟩, hle, fun k hlow hhigh => ?_⟩
  rcases Nat.lt_or_eq_of_le hhigh with hlt | rfl
  · exact (hs.discards_iff hx).mpr (hbetween k hlow hlt)
  · exact hj

/-- In `a or ) b`, an expression over the highest floor, all tokens behind `a` are dropped after one
error. -/
theorem discards_explained_rest :
    Entry.Keeps (.expression 4) ∧
    ∃ t, Entry.parse ⟨20, .recover⟩ ([Kind.name, .orWord, .rightParen, .name].map Token.ofKind)
      (.expression 4) = .ok t ∧ t.Discards 3 ∧
      ∃ e ∈ t.diagnostics, e.index ≤ 3 ∧ ∀ k, e.index ≤ k → k ≤ 3 → t.Discards k := by
  have hkeeps : Entry.Keeps (.expression 4) := Nat.le_refl 4
  obtain ⟨t, h, hj⟩ : ∃ t, Entry.parse ⟨20, .recover⟩
      ([Kind.name, .orWord, .rightParen, .name].map Token.ofKind) (.expression 4) = .ok t ∧
      t.Discards 3 := by
    decide +kernel
  exact ⟨hkeeps, t, h, hj, discards_explained (.expression 4) hkeeps h 3 hj⟩

end Parser

end PipeQuery

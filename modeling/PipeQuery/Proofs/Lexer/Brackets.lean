import PipeQuery.Proofs.Lexer.Readings

/-!
# Brackets restore the mode

The mode in which a token is read depends on the tokens before it, and on nothing else in the
source. Commands and pipes set the mode, also between brackets; but the modes of the open brackets
are kept aside, so behind a closing bracket the mode is that of its opening bracket again.

## Main definitions

* `Lexer.Balanced`: kinds whose brackets are matched
* `Lexer.OpenAt`: kinds behind which brackets are open, each of which stands in a mode
* `Lexer.ModesNest`: the modes of readings follow their brackets

## Main results

* `Lexer.Balanced.after_enclosed`: a balanced text in brackets leaves the modes as they were
* `Lexer.openAt_after`: the modes kept aside are those of the open brackets
* `Lexer.brackets_restore_mode`: brackets restore the mode
-/

namespace PipeQuery.Lexer

open Token (Kind)

variable {m : Mode} {modes : Modes} {k : Kind} {ks body : List Kind} {outer : List Mode}

/-! ## Matched brackets -/

/-- Each opening bracket is closed, and each closing bracket closes one. -/
inductive Balanced : List Kind → Prop
  | nil : Balanced []
  | cons {k : Kind} {ks : List Kind} (hopen : k ≠ .leftBracket) (hclose : k ≠ .rightBracket)
    (h : Balanced ks) : Balanced (k :: ks)
  | nest {body ks : List Kind} (hbody : Balanced body) (h : Balanced ks) :
    Balanced (.leftBracket :: (body ++ .rightBracket :: ks))

theorem Balanced.append {ks' : List Kind} (h : Balanced ks) (h' : Balanced ks') :
    Balanced (ks ++ ks') := by
  induction h with
  | nil => exact h'
  | cons hopen hclose _ ih => exact .cons hopen hclose ih
  | nest hbody _ _ ih =>
    rw [List.cons_append, List.append_assoc]
    exact .nest hbody ih

theorem Balanced.enclosed (h : Balanced body) :
    Balanced (.leftBracket :: (body ++ [.rightBracket])) :=
  .nest h .nil

/-- Only brackets reach the modes that are kept aside. -/
theorem Modes.next_outer (hopen : k ≠ .leftBracket) (hclose : k ≠ .rightBracket) :
    (modes.next k).outer = modes.outer := by
  cases k <;> first | rfl | contradiction

theorem Modes.next_rightBracket {mode : Mode} (h : modes.outer = mode :: outer) :
    modes.next .rightBracket = ⟨mode, outer⟩ := by
  rw [Modes.next, h]

/-- Matched brackets leave the modes kept aside as they were. -/
theorem Balanced.after_outer (h : Balanced ks) (modes : Modes) :
    (modes.after ks).outer = modes.outer := by
  induction h generalizing modes with
  | nil => rfl
  | cons hopen hclose _ ih => rw [Modes.after_cons, ih, Modes.next_outer hopen hclose]
  | nest _ _ ihbody ih =>
    -- The closing bracket finds the mode that the opening one has kept aside.
    rw [Modes.after_cons, Modes.after_append, Modes.after_cons, ih,
      Modes.next_rightBracket (ihbody _)]

/-- **A balanced text in brackets leaves the modes as they were**, whatever commands and pipes it
holds. -/
theorem Balanced.after_enclosed (h : Balanced body) (modes : Modes) :
    modes.after (.leftBracket :: (body ++ [.rightBracket])) = modes := by
  rw [Modes.after_cons, Modes.after_append, Modes.after_cons, Modes.after_nil]
  exact Modes.next_rightBracket (h.after_outer _)

/-! ## Open brackets -/

/-- In a text that starts in the mode `m`, the brackets that are open behind `ks` stand in the modes
`outer`, innermost first. A closing bracket counts for nothing where none is open. -/
inductive OpenAt (m : Mode) : List Kind → List Mode → Prop
  | start : OpenAt m [] []
  | flat {ks word : List Kind} {outer : List Mode} (h : OpenAt m ks outer) (hword : Balanced word) :
    OpenAt m (ks ++ word) outer
  | stray {ks : List Kind} (h : OpenAt m ks []) : OpenAt m (ks ++ [.rightBracket]) []
  | nest {ks : List Kind} {outer : List Mode} (h : OpenAt m ks outer) :
    OpenAt m (ks ++ [.leftBracket]) (((Modes.start m).after ks).current :: outer)

/-- The innermost open bracket stands somewhere, and behind it brackets are matched. -/
theorem OpenAt.exists_bracket {mode : Mode} (h : OpenAt m ks (mode :: outer)) :
    ∃ past body, ks = past ++ .leftBracket :: body ∧ Balanced body ∧ OpenAt m past outer ∧
      mode = ((Modes.start m).after past).current := by
  generalize hall : mode :: outer = all at h
  induction h with
  | start => cases hall
  | stray => cases hall
  | @nest past _ h =>
    cases hall
    exact ⟨past, [], rfl, .nil, h, rfl⟩
  | flat _ hword ih =>
    obtain ⟨past, body, rfl, hbody, hpast, hmode⟩ := ih hall
    refine ⟨past, body ++ _, ?_, hbody.append hword, hpast, hmode⟩
    rw [List.append_assoc, List.cons_append]

/-- What one more token does to the open brackets. -/
theorem OpenAt.next (h : OpenAt m ks ((Modes.start m).after ks).outer) (k : Kind) :
    OpenAt m (ks ++ [k]) (((Modes.start m).after ks).next k).outer := by
  by_cases hopen : k = .leftBracket
  · subst hopen
    exact h.nest
  by_cases hclose : k = .rightBracket
  · subst hclose
    rw [Modes.next]
    split
    · rename_i hnone
      rw [hnone] at h ⊢
      exact h.stray
    · rename_i mode outer hsome
      rw [hsome] at h
      -- The bracket closes the innermost one, and what it encloses is balanced.
      obtain ⟨past, body, rfl, hbody, hpast, -⟩ := h.exists_bracket
      have hflat := hpast.flat hbody.enclosed
      rwa [List.append_assoc, List.cons_append]
  · rw [Modes.next_outer hopen hclose]
    exact h.flat (.cons hopen hclose .nil)

/-- **The modes kept aside are those of the open brackets.** -/
theorem openAt_after (m : Mode) (ks : List Kind) :
    OpenAt m ks ((Modes.start m).after ks).outer := by
  induction ks using List.reverseRecOn with
  | nil => exact .start
  | append_singleton ks k ih =>
    rw [Modes.after_append, Modes.after_cons, Modes.after_nil]
    exact ih.next k

/-- A closing bracket that closes none changes nothing. -/
theorem next_stray (hstray : ∀ past body, ks = past ++ .leftBracket :: body → ¬ Balanced body) :
    ((Modes.start m).after ks).next .rightBracket = (Modes.start m).after ks := by
  rw [Modes.next]
  split
  · rfl
  · rename_i mode outer hsome
    have hopen := openAt_after m ks
    rw [hsome] at hopen
    obtain ⟨past, body, hks, hbody, -⟩ := hopen.exists_bracket
    exact absurd hbody (hstray past body hks)

/-! ## The modes of a source -/

/-- The modes of readings follow their brackets. -/
structure ModesNest (m : Mode) (rs : List Reading) : Prop where
  /-- A mode depends on the mode at the start and the kinds before. -/
  determined : ∀ past r rest, rs = past ++ r :: rest →
    r.mode = ((Modes.start m).after (kindsOf past)).current
  /-- What is in brackets starts in command mode. -/
  opened : ∀ past o r rest, rs = past ++ o :: r :: rest → o.token.kind = .leftBracket →
    r.mode = .command
  /-- Behind its closing bracket the mode of an opening bracket is in force again. -/
  restored : ∀ past o body c r rest, rs = past ++ o :: (body ++ c :: r :: rest) →
    o.token.kind = .leftBracket → Balanced (kindsOf body) → c.token.kind = .rightBracket →
    r.mode = o.mode
  /-- A closing bracket without an opening one leaves the mode as it was. -/
  stray : ∀ past c r rest, rs = past ++ c :: r :: rest → c.token.kind = .rightBracket →
    (∀ past' o body, past = past' ++ o :: body → o.token.kind = .leftBracket →
      ¬ Balanced (kindsOf body)) →
    r.mode = c.mode

theorem modesNest_withModes (m : Mode) (ts : List Token) :
    ModesNest m (withModes (.start m) ts) := by
  constructor
  · intro past r rest hrs
    exact mode_of_withModes hrs
  · intro past o r rest hrs ho
    rw [← List.singleton_append, ← List.append_assoc] at hrs
    rw [mode_of_withModes hrs, kindsOf_append, kindsOf_cons, ho, Modes.after_append]
    rfl
  · intro past o body c r rest hrs ho hbody hc
    have hmode := mode_of_withModes hrs
    have hbehind : withModes (.start m) ts = (past ++ o :: (body ++ [c])) ++ r :: rest := by
      simpa using hrs
    rw [mode_of_withModes hbehind, kindsOf_append, kindsOf_cons, kindsOf_append, kindsOf_cons, ho,
      hc, Modes.after_append, hmode]
    exact congrArg Modes.current (hbody.after_enclosed _)
  · intro past c r rest hrs hc hstray
    have hmode := mode_of_withModes hrs
    rw [← List.singleton_append, ← List.append_assoc] at hrs
    rw [mode_of_withModes hrs, kindsOf_append, kindsOf_cons, hc, Modes.after_append, hmode]
    refine congrArg Modes.current (next_stray fun past' body hkinds hbody => ?_)
    -- The kinds before the bracket are cut where the readings are.
    obtain ⟨pre, post, rfl, rfl, hpost⟩ := List.map_eq_append_iff.mp hkinds
    obtain ⟨o, rs, rfl, ho, rfl⟩ := List.map_eq_cons_iff.mp hpost
    exact hstray pre o rs rfl ho hbody

/-- **Brackets restore the mode.** In a source that is lexed, in whatever mode it starts, each token
is read in a mode that depends only on that start and on the kinds of the tokens before it. Behind
an opening bracket it is command mode; behind the closing bracket that matches an opening one it is
the mode in which the opening bracket was read; and a closing bracket that matches none leaves the
mode as it was. -/
theorem brackets_restore_mode {m : Mode} {source : String} {tokens : List Token}
    (h : tokenizeIn m source = .ok tokens) :
    ∃ rs, readingsIn m source = .ok rs ∧ rs.map Reading.token = tokens ∧ ModesNest m rs := by
  exact ⟨withModes (.start m) tokens, readingsIn_eq h, map_token_withModes _ _,
    modesNest_withModes m tokens⟩

/-- A list of sources, with brackets around a query and in it, and a bracket that closes none. -/
theorem brackets_restore_mode_sourceList :
    ∃ tokens rs, tokenizeIn .source "a [ from [ where ] b | sort ] ] c" = .ok tokens ∧
      readingsIn .source "a [ from [ where ] b | sort ] ] c" = .ok rs ∧
      tokens.map Token.kind = [.sourceName, .leftBracket, .fromCmd, .leftBracket, .whereCmd,
        .rightBracket, .sourceName, .pipe, .sortCmd, .rightBracket, .rightBracket, .sourceName,
        .endOfInput] ∧
      rs.map Reading.mode = [.source, .source, .command, .source, .command, .expression, .source,
        .source, .command, .expression, .source, .source, .source] ∧
      ModesNest .source rs := by
  have hkinds : (tokenizeIn .source "a [ from [ where ] b | sort ] ] c").map (List.map Token.kind) =
      .ok [.sourceName, .leftBracket, .fromCmd, .leftBracket, .whereCmd, .rightBracket, .sourceName,
        .pipe, .sortCmd, .rightBracket, .rightBracket, .sourceName, .endOfInput] := by
    decide +kernel
  have hmodes : (readingsIn .source "a [ from [ where ] b | sort ] ] c").map
      (List.map Reading.mode) = .ok [.source, .source, .command, .source, .command, .expression,
        .source, .source, .command, .expression, .source, .source, .source] := by
    decide +kernel
  obtain ⟨tokens, htokens, hkinds⟩ := exists_of_map_ok hkinds
  obtain ⟨rs, hrs, -, hnest⟩ := brackets_restore_mode htokens
  rw [hrs] at hmodes
  exact ⟨tokens, rs, htokens, hrs, hkinds, Except.ok.inj hmodes, hnest⟩

end PipeQuery.Lexer

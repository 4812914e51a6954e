import PipeQuery.Proofs.Lexer.Layout

/-!
# Tokens and the modes they are read in

How a token is read depends on the mode in force where it starts. The lexer keeps that mode to
itself; here it is kept with the token.

## Main definitions

* `Lexer.Reading`: a token and the mode it is read in
* `Lexer.readingsFrom`, `Lexer.readingsIn`: the readings of a text and of a source
* `Lexer.withModes`: tokens, each with the mode that those before it leave

## Main results

* `Lexer.readingsFrom_eq`: a token is read in the mode that the tokens before it leave
* `Lexer.Reads.scanned`: what a token is read from
-/

namespace PipeQuery.Lexer

open Token (Kind)

variable {m : Mode} {modes : Modes}

/-! ## The readings of a text -/

/-- A token and the mode in which it is read. -/
structure Reading where
  mode : Mode
  token : Token
deriving DecidableEq

/-- The kinds of what is read. -/
def kindsOf (rs : List Reading) : List Kind := rs.map (·.token.kind)

@[simp]
theorem kindsOf_append (rs rs' : List Reading) : kindsOf (rs ++ rs') = kindsOf rs ++ kindsOf rs' :=
  List.map_append

@[simp]
theorem kindsOf_cons (r : Reading) (rs : List Reading) :
    kindsOf (r :: rs) = r.token.kind :: kindsOf rs := rfl

/-- The tokens of the text `cs`, which starts at `p`, where `modes` are in force, each with the mode
it is read in. The end of the input is found in the mode in force there. -/
def readingsFrom (modes : Modes) (p : Position) (cs : List Char) : Except Error (List Reading) :=
  match _hg : trivia cs with
  | (gap, rest) =>
    let p := p.after gap
    if opensComment rest then .error ⟨.openComment, p⟩
    else if rest.isEmpty then .ok [⟨modes.current, .eof (.between p p)⟩]
    else
      match _hs : scan modes.current rest with
      | .error cause => .error ⟨cause, p⟩
      | .ok l =>
        (readingsFrom (modes.next l.kind) (p.after l.text) l.rest).map
          (⟨modes.current, l.token p⟩ :: ·)
termination_by cs.length
decreasing_by
  have := (scan_starts _hs).length_lt
  have := length_trivia_le cs
  simp only [_hg] at this
  omega

/-- Tokens, each with the mode that those before it leave. -/
def withModes : Modes → List Token → List Reading
  | _, [] => []
  | modes, t :: ts => ⟨modes.current, t⟩ :: withModes (modes.next t.kind) ts

theorem map_token_withModes (modes : Modes) (ts : List Token) :
    (withModes modes ts).map Reading.token = ts := by
  induction ts generalizing modes with
  | nil => rfl
  | cons t ts ih => rw [withModes, List.map_cons, ih]

/-- The mode of a reading is the one behind the kinds before it. -/
theorem mode_of_withModes {ts : List Token} {past rest : List Reading} {r : Reading}
    (h : withModes modes ts = past ++ r :: rest) :
    r.mode = (modes.after (kindsOf past)).current := by
  induction past generalizing modes ts with
  | nil =>
    cases ts with
    | nil => cases h
    | cons t ts =>
      cases h
      rfl
  | cons r' past ih =>
    cases ts with
    | nil => cases h
    | cons t ts =>
      rw [withModes, List.cons_append, List.cons.injEq] at h
      obtain ⟨rfl, h⟩ := h
      rw [kindsOf_cons, Modes.after_cons]
      exact ih h

/-- **The mode in which a token is read is the one that the tokens before it leave.** -/
theorem readingsFrom_eq (modes : Modes) (p : Position) (cs : List Char) :
    readingsFrom modes p cs = (tokensFrom modes p cs).map (withModes modes) := by
  induction modes, p, cs using readingsFrom.induct with
  | case1 modes p cs gap rest hgap hopen =>
    rw [tokensFrom_openComment hgap hopen, readingsFrom]
    simp only [hgap]
    rw [if_pos hopen]
    rfl
  | case2 modes p cs gap rest hgap hopen hrest =>
    obtain rfl := List.isEmpty_iff.mp hrest
    rw [tokensFrom_end hgap, readingsFrom]
    simp only [hgap]
    rfl
  | case3 modes p cs gap rest hgap hopen hrest cause hscan =>
    rw [tokensFrom_stuck hgap (by simpa using hopen) (by simpa using hrest) hscan, readingsFrom]
    simp only [hgap]
    rw [if_neg hopen, if_neg hrest]
    -- No token is read, and neither function goes on.
    split <;> simp_all [Except.map]
  | case4 modes p cs gap rest hgap _ hopen hrest l hscan =>
    rename_i ih
    rw [tokensFrom_token hgap (by simpa using hopen) hscan, readingsFrom]
    simp only [hgap] at ih ⊢
    rw [if_neg hopen, if_neg hrest]
    split
    · simp_all
    · rename_i l' hscan'
      obtain rfl : l = l' := by simp_all
      rw [ih]
      cases tokensFrom (modes.next l.kind) ((p.after gap).after l.text) l.rest <;> rfl

/-- The tokens of a source that starts in the mode `m`, each with the mode it is read in. -/
def readingsIn (m : Mode) (source : String) : Except Error (List Reading) :=
  readingsFrom (.start m) .start source.toList

theorem readingsIn_eq {source : String} {tokens : List Token}
    (h : tokenizeIn m source = .ok tokens) :
    readingsIn m source = .ok (withModes (.start m) tokens) := by
  rw [tokenizeIn] at h
  rw [readingsIn, readingsFrom_eq, h]
  rfl

/-- **A token is read where it stands**, in its mode: what stands before it does not matter
otherwise. -/
theorem Reads.scanned {p : Position} {before cs : List Char} {ts : List Token}
    (h : Reads modes p cs ts) (hp : p = .after .start before) {r : Reading}
    (hr : r ∈ withModes modes ts) (hk : r.token.kind ≠ .endOfInput) :
    ∃ past rest l, before ++ cs = past ++ rest ∧ scan r.mode rest = .ok l ∧
      r.token = l.token (.after .start past) := by
  induction h generalizing before with
  | last hgap =>
    obtain rfl := List.mem_singleton.mp hr
    exact absurd rfl hk
  | @token modes p cs gap rest l ts hgap _ hscan _ ih =>
    have happend := append_of_trivia hgap
    have htext := (scan_starts hscan).1
    rcases List.mem_cons.mp hr with rfl | hr
    · refine ⟨before ++ gap, rest, l, ?_, hscan, ?_⟩
      · rw [List.append_assoc, happend]
      · rw [hp, ← Position.after_append]
    · -- A later token is read behind the text of this one.
      have hnext : (p.after gap).after l.text = .after .start (before ++ gap ++ l.text) := by
        rw [hp, Position.after_append, Position.after_append]
      obtain ⟨past, behind, l', hsplit, hscan', htoken⟩ := ih hnext hr
      refine ⟨past, behind, l', ?_, hscan', htoken⟩
      rw [← hsplit, ← happend, ← htext]
      simp

end PipeQuery.Lexer

import PipeQuery.Lexer.Scan
import PipeQuery.Token.Basic

/-!
# The lexer

A source is read from its start: blanks and comments are skipped, one token is read in the mode
in force, and the mode behind it is taken for the next one. The tokens end with the end of the
input, at the place behind the last character.

## Main definitions

* `Lexer.tokensFrom`: the tokens of a text from a given place and mode on
* `tokenize`, `tokenizeIn`: the tokens of a source, from the start of a pipeline or in any mode

## Main results

* `Lexer.tokensFrom_openComment`, `Lexer.tokensFrom_end`, `Lexer.tokensFrom_stuck`,
  `Lexer.tokensFrom_token`: what the lexer does behind a gap
-/

namespace PipeQuery

namespace Lexer

/-- Whether a block comment starts here. Behind the trivia such a comment is never closed. -/
def opensComment : List Char → Bool
  | '/' :: '*' :: _ => true
  | _ => false

/-- The token of a lexeme at a place. -/
def Lexeme.token (l : Lexeme) (p : Position) : Token :=
  ⟨l.kind, String.ofList l.text, .between p (p.after l.text)⟩

/-- The tokens of the text `cs`, which starts at `p`, where `modes` are in force. -/
def tokensFrom (modes : Modes) (p : Position) (cs : List Char) : Except Error (List Token) :=
  match _hg : trivia cs with
  | (gap, rest) =>
    let p := p.after gap
    -- A comment that ends has been skipped, so one that starts here does not.
    if opensComment rest then .error ⟨.openComment, p⟩
    else if rest.isEmpty then .ok [.eof (.between p p)]
    else
      match _hs : scan modes.current rest with
      | .error cause => .error ⟨cause, p⟩
      | .ok l =>
        (tokensFrom (modes.next l.kind) (p.after l.text) l.rest).map (l.token p :: ·)
termination_by cs.length
decreasing_by
  -- A token is not empty, and skipping trivia lengthens nothing.
  have := (scan_starts _hs).length_lt
  have := length_trivia_le cs
  simp only [_hg] at this
  omega

section Steps

variable {modes : Modes} {p : Position} {cs gap rest : List Char}

theorem tokensFrom_openComment (hgap : trivia cs = (gap, rest)) (hopen : opensComment rest = true) :
    tokensFrom modes p cs = .error ⟨.openComment, p.after gap⟩ := by
  rw [tokensFrom]
  simp only [hgap]
  rw [if_pos hopen]

theorem tokensFrom_end (hgap : trivia cs = (gap, [])) :
    tokensFrom modes p cs = .ok [.eof (.between (p.after gap) (p.after gap))] := by
  rw [tokensFrom]
  simp only [hgap]
  rfl

theorem tokensFrom_stuck (hgap : trivia cs = (gap, rest)) (hopen : opensComment rest = false)
    (hne : rest ≠ []) {cause : Cause} (hscan : scan modes.current rest = .error cause) :
    tokensFrom modes p cs = .error ⟨cause, p.after gap⟩ := by
  rw [tokensFrom]
  simp only [hgap]
  rw [if_neg (by simp [hopen]), if_neg (by simpa using hne)]
  split <;> simp_all

theorem tokensFrom_token (hgap : trivia cs = (gap, rest)) (hopen : opensComment rest = false)
    {l : Lexeme} (hscan : scan modes.current rest = .ok l) :
    tokensFrom modes p cs =
      (tokensFrom (modes.next l.kind) ((p.after gap).after l.text) l.rest).map
        (l.token (p.after gap) :: ·) := by
  have hne : rest ≠ [] := by
    obtain ⟨htext, hne⟩ := scan_starts hscan
    simp [← htext, hne]
  rw [tokensFrom]
  simp only [hgap]
  rw [if_neg (by simp [hopen]), if_neg (by simpa using hne)]
  split <;> simp_all

end Steps

section Map

variable {α β : Type} {f : α → β} {x : Except Error α}

theorem exists_of_map_ok {b : β} (h : x.map f = .ok b) : ∃ a, x = .ok a ∧ f a = b := by
  cases x with
  | ok a => exact ⟨a, rfl, Except.ok.inj h⟩
  | error e => cases h

theorem error_of_map_error {e : Error} (h : x.map f = .error e) : x = .error e := by
  cases x with
  | ok a => cases h
  | error e' =>
    cases h
    rfl

end Map

end Lexer

/-- The tokens of a source that starts in the mode `m`. -/
def tokenizeIn (m : Lexer.Mode) (source : String) : Except Lexer.Error (List Token) :=
  Lexer.tokensFrom (.start m) .start source.toList

/-- The tokens of a query. -/
def tokenize (source : String) : Except Lexer.Error (List Token) := tokenizeIn .command source

end PipeQuery

import PipeQuery.Proofs.Parser.ValidTrees

/-!
# The place of the first error

A parse that bails out does so at the first token that no query can go on with. What stands before
that token can be continued to a query, whatever alternative the parser has chosen by looking
ahead; what stands up to and with it cannot.

## Main results

* `Reads.exists_completion`, `Reads.not_derives`: where a reading gets stuck
* `bailed_correctPrefix`: where a parse that bails out meets its error
-/

namespace PipeQuery

namespace Parser

open Token (Kind)

variable {n : Draft} {v w u : List Kind} {o : Outcome}

/-- What is read of a query can be continued to a query. -/
theorem Reads.exists_completion (h : Reads (.only .query) n w o) :
    ∃ v x, w = v ++ o.rest ∧ Derives [.rule .query] (v ++ x) := by
  cases h with
  | call hr hp =>
    cases hp
    obtain ⟨v, hw, hg, -⟩ := hr.groups (by decide)
    refine ⟨v, [], hw, ?_⟩
    rw [List.append_nil]
    exact hg.derives
  | callStuck hr => exact hr.exists_continuation (by decide)

/-- What is read of a query that does not end there is no beginning of a query together with the
next token, nor a query before the end of the input. -/
theorem Reads.not_derives (h : Reads (.only .query) n (v ++ o.rest) o)
    (ho : ∀ n', o ≠ .read n' []) (hu : u.head? = o.rest.head?) :
    ¬ Derives [.rule .query] (v ++ u) := by
  intro hd
  obtain ⟨v', hv, hextend⟩ := h.extend
  obtain rfl : v = v' := List.append_cancel_right hv
  obtain ⟨q, hq⟩ := exists_reads hd (by decide)
  have heq : o.before u = .read (n.add q.shape) [] := (hextend u hu).unique (.call hq .done)
  cases o with
  | stuck rest => cases heq
  | read m rest =>
    obtain ⟨-, rfl⟩ := Outcome.read.inj heq
    have hrest : rest = [] := List.head?_eq_none_iff.mp hu.symm
    exact ho m (by rw [hrest])

/-- **A parse that bails out meets its error at the first token that cannot continue a query.** The
tokens before the error can be continued to a query, but not together with the token at the error;
and if the error is at the end of the input, the tokens are no query. -/
theorem bailed_correctPrefix (options : Options) (w : List Token) (eof : Token)
    (hw : ∀ t ∈ w, t.isEof = false) (heof : eof.isEof = true)
    (hs : options.strategy = .bail) (hd : 4 * w.length + 12 ≤ options.maxDepth)
    (e : SyntaxError) (h : parseTokens options (w ++ [eof]) = .error (.bailed e)) :
    e.index ≤ w.length ∧
    (∃ v : List Token, Derives [.rule .query] ((w.take e.index ++ v).map Token.kind)) ∧
    (e.index < w.length →
      ∀ v : List Token, ¬ Derives [.rule .query] ((w.take (e.index + 1) ++ v).map Token.kind)) ∧
    (e.index = w.length → ¬ Derives [.rule .query] (w.map Token.kind)) := by
  have hcoming := TokenStream.coming_ofList_concat hw heof
  have hne : (TokenStream.ofList (w ++ [eof])).isEmpty = false :=
    isEmpty_eq_false_of_run h fun he => by cases he
  have hverdict := statement_verdict options hne
  rw [h, hcoming] at hverdict
  cases hverdict with
  | deep hlt =>
    rw [List.length_map] at hlt
    omega
  | @faulty _ o hr ho _ hb =>
    obtain ⟨_, he, hindex⟩ := hb hs
    cases he
    obtain ⟨v, x, hv, hx⟩ := hr.exists_completion
    have hlen : e.index = v.length := by
      rw [hv, List.length_append] at hindex
      omega
    rw [List.length_map] at hindex
    have htake : (w.take e.index).map Token.kind = v := by
      rw [List.map_take, hv, hlen, List.take_left]
    rw [hv] at hr
    refine ⟨by omega, ⟨x.map Token.ofKind, ?_⟩, fun hlt y => ?_, fun heq => ?_⟩
    · rw [List.map_append, htake, List.map_map]
      simpa [Function.comp_def, Token.ofKind] using hx
    · -- The offending token is the first of those left.
      obtain ⟨k, rest, hrest⟩ : ∃ k rest, o.rest = k :: rest := by
        refine List.exists_cons_of_ne_nil fun hnil => ?_
        rw [hnil, List.length_nil] at hindex
        omega
      have htake' : (w.take (e.index + 1)).map Token.kind = v ++ [k] := by
        rw [List.map_take, hv, hrest, hlen, List.take_append, Nat.add_sub_cancel_left,
          List.take_of_length_le (Nat.le_succ v.length)]
        rfl
      rw [List.map_append, htake', List.append_assoc]
      exact hr.not_derives ho (by rw [hrest]; rfl)
    · have hnil : o.rest = [] := List.length_eq_zero_iff.mp (by omega)
      have hnot := hr.not_derives (u := []) ho (by rw [hnil])
      rwa [List.append_nil, ← List.append_nil v, ← hnil, ← hv] at hnot

/-- In `from s | where a == (a + *`, the error is at the product sign. -/
theorem bailed_correctPrefix_product :
    let w : List Token := [Kind.fromCmd, .sourceName, .pipe, .whereCmd, .name, .equal, .leftParen,
      .name, .plus, .star].map Token.ofKind
    let e : SyntaxError := ⟨.noViable, .operatorExpression, 9, .ofKind .star,
      Rule.operatorExpression.first⟩
    (∀ t ∈ w, t.isEof = false) ∧ 4 * w.length + 12 ≤ 52 ∧
    parseTokens ⟨52, .bail⟩ (w ++ [.ofKind .endOfInput]) = .error (.bailed e) ∧
    (∃ v : List Token, Derives [.rule .query] ((w.take 9 ++ v).map Token.kind)) ∧
    ∀ v : List Token, ¬ Derives [.rule .query] ((w.take 10 ++ v).map Token.kind) := by
  intro w e
  have hw : ∀ t ∈ w, t.isEof = false := by decide
  have h : parseTokens ⟨52, .bail⟩ (w ++ [.ofKind .endOfInput]) = .error (.bailed e) := by
    decide +kernel
  obtain ⟨-, hprefix, hoffender, -⟩ :=
    bailed_correctPrefix ⟨52, .bail⟩ w (.ofKind .endOfInput) hw rfl rfl (by decide) e h
  exact ⟨hw, by decide, h, hprefix, hoffender (by decide)⟩

end Parser

end PipeQuery

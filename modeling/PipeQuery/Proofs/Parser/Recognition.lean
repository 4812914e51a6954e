import PipeQuery.Proofs.Parser.ValidTrees

/-!
# The language of the parser

The grammar of queries is left-recursive and ambiguous, and the parser has no rule for it as it
stands: it predicts, climbs precedences and looks for ends of stages. It accepts the words of the
grammar all the same, and no others.

## Main definitions

* `Label.IsUndecided`: the label of a node whose alternative is not known

## Main results

* `parse_isValid_iff_derives`: the tokens that have a valid tree are those that can be derived
-/

namespace PipeQuery

open Token (Kind)

/-- A label that leaves it open by which of the labelled alternatives of its rule a node was
built. -/
def Label.IsUndecided (l : Label) : Prop :=
  l.isAlternative = false ∧ ∃ l' : Label, l'.isAlternative = true ∧ l'.rule = l.rule

/-- The rules with labelled alternatives. -/
theorem Label.rule_mem_of_isAlternative {l : Label} (h : l.isAlternative = true) :
    l.rule ∈ [Rule.query, .booleanExpression, .valueExpression, .operatorExpression,
      .primaryExpression, .constant, .number] := by
  cases l <;> first | decide | cases h

/-- No production belongs to an undecided label. -/
theorem Production.not_isUndecided {l : Label} {body : List Symbol} (h : Production l body) :
    ¬ l.IsUndecided := by
  rintro ⟨hl, l', hl', hrule⟩
  have hmem := Label.rule_mem_of_isAlternative hl'
  rw [hrule] at hmem
  cases h <;> first | exact absurd hl (by decide) | exact absurd hmem (by decide)

namespace Parser

/-- **The parser accepts the words of the grammar, and no others.** A list of tokens has a valid
tree if and only if the kinds of the tokens can be derived, as a query or as an expression; the
children of each node of a valid tree spell an alternative of the node's label, and no node is left
undecided. -/
theorem parse_isValid_iff_derives (options : Options) (w : List Token) (eof : Token)
    (hw : ∀ t ∈ w, t.isEof = false) (heof : eof.isEof = true)
    (hd : 4 * w.length + 12 ≤ options.maxDepth) :
    ((∃ t, parseTokens options (w ++ [eof]) = .ok t ∧ t.isValid = true) ↔
      Derives [.rule .query] (w.map Token.kind)) ∧
    ((∃ t, parseExpressionTokens options 0 (w ++ [eof]) = .ok t ∧ t.isValid = true) ↔
      Derives [.rule .booleanExpression] (w.map Token.kind)) ∧
    ∀ t, (parseTokens options (w ++ [eof]) = .ok t ∨
        parseExpressionTokens options 0 (w ++ [eof]) = .ok t) → t.isValid = true →
      ∀ id < t.size, t.Spells id ∧ ¬ (t.label id).IsUndecided := by
  have hcoming := TokenStream.coming_ofList_concat hw heof
  have hlen : (TokenStream.ofList (w ++ [eof])).coming.length = w.length := by
    rw [hcoming, List.length_map]
  refine ⟨⟨?_, fun h => ?_⟩, ⟨?_, fun h => ?_⟩, fun t ht hv id hid => ?_⟩
  · rintro ⟨t, ht, hv⟩
    obtain ⟨x, -, hx⟩ := statement_groups ht hv
    rw [hcoming] at hx
    exact hx.derives.statement_inv
  · rw [← hcoming] at h
    exact statement_accepts (by omega) h
  · rintro ⟨t, ht, hv⟩
    obtain ⟨x, -, hx⟩ := expression_groups ht hv
    rw [hcoming] at hx
    exact hx.derives
  · rw [← hcoming] at h
    exact expression_accepts (by omega) h
  · have hspells : t.Spells id := by
      rcases ht with ht | ht
      · obtain ⟨x, hwhole, hx⟩ := statement_groups ht hv
        exact hwhole.spells hx hid
      · obtain ⟨x, hwhole, hx⟩ := expression_groups ht hv
        exact hwhole.spells hx hid
    obtain ⟨body, hbody, hchildren⟩ := hspells
    exact ⟨⟨body, hbody, hchildren⟩, hbody.not_isUndecided⟩

/-- `from s | where not a or 1 + 1` is a query, and no expression. -/
theorem derives_whereNot :
    let w : List Token := [Kind.fromCmd, .sourceName, .pipe, .whereCmd, .notWord, .name, .orWord,
      .integer, .plus, .integer].map Token.ofKind
    (∀ t ∈ w, t.isEof = false) ∧ (Token.ofKind .endOfInput).isEof = true ∧
    4 * w.length + 12 ≤ 52 ∧ Derives [.rule .query] (w.map Token.kind) ∧
    ¬ Derives [.rule .booleanExpression] (w.map Token.kind) := by
  intro w
  have hw : ∀ t ∈ w, t.isEof = false := by decide
  obtain ⟨hquery, hexpression, -⟩ :=
    parse_isValid_iff_derives ⟨52, .bail⟩ w (.ofKind .endOfInput) hw rfl (by decide)
  refine ⟨hw, rfl, by decide, hquery.mp (by decide +kernel), fun h => ?_⟩
  exact absurd (hexpression.mpr h) (by decide +kernel)

end Parser

end PipeQuery

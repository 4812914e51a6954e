import PipeQuery.Proofs.Parser.Reading

/-!
# What words announce

Where a rule has alternatives that start alike, the parser looks further ahead. What it finds tells
the alternatives apart: each word of one of them announces its alternative, before all tokens that
can come behind it.

## Main results

* `fieldForm?_expression`, `fieldForm?_assignment`: fields
* `primaryForm?_name`, `primaryForm?_call`, `primaryForm?_parenthesized`: primary expressions
* `clauseForm?_keep`, `clauseForm?_rename`: clauses of `project`
-/

namespace PipeQuery.Parser

open Token (Kind KindSet)

variable {v w rest : List Kind} {ss : List Symbol}

/-! ## Names -/

/-- A name is read up to its end, wherever no dot comes next. -/
theorem exists_name_of_derives {n : Nat} (h : Derives (separated (.rule .identifier) .dot n) w)
    {rest : List Kind} (hrest : next rest ≠ .dot) :
    ∃ k x, w = k :: x ∧ isName k = true ∧ nameTail (x ++ rest) = rest := by
  induction n generalizing w with
  | zero =>
    obtain ⟨k, rfl, hk⟩ := h.identifier_inv
    exact ⟨k, [], rfl, hk, nameTail_of_next_ne hrest⟩
  | succ n ih =>
    obtain ⟨_, _, rfl, hu, htail⟩ := h.cons_rule_inv
    obtain ⟨k, rfl, hk⟩ := hu.identifier_inv
    obtain ⟨_, rfl, hx⟩ := htail.cons_token_inv
    obtain ⟨k', x, rfl, hk', hname⟩ := ih hx
    refine ⟨k, .dot :: k' :: x, rfl, hk, ?_⟩
    rw [List.cons_append, List.cons_append, nameTail, if_pos hk', hname]

/-- What is read of a name beyond a word is not more than the word, where neither a dot nor a name
comes next. -/
theorem exists_nameTail_append (hdot : next rest ≠ .dot) (hname : isName (next rest) = false)
    (x : List Kind) : ∃ y, y <:+ x ∧ nameTail (x ++ rest) = y ++ rest := by
  fun_induction nameTail x with
  | case1 k x hk ih =>
    obtain ⟨y, hy, heq⟩ := ih
    refine ⟨y, hy.trans ((List.suffix_cons k x).trans (List.suffix_cons _ _)), ?_⟩
    rw [List.cons_append, List.cons_append, nameTail, if_pos hk, heq]
  | case2 k x hk =>
    refine ⟨_, List.suffix_refl _, ?_⟩
    rw [List.cons_append, List.cons_append, nameTail, if_neg hk]
  | case3 x hx =>
    refine ⟨x, List.suffix_refl x, ?_⟩
    cases x with
    | nil => exact nameTail_of_next_ne hdot
    | cons k x =>
      by_cases hk : k = .dot
      · subst hk
        cases x with
        | nil => exact nameTail_dot hname
        | cons k x => exact absurd rfl (hx k x)
      · exact nameTail_of_next_ne hk

theorem ne_of_mem {K : KindSet} {k k' : Kind} (h : k ∈ K) (hk : k' ∉ K := by decide) : k ≠ k' :=
  fun he => hk (he ▸ h)

theorem next_append_ne {k : Kind} (hv : k ∉ v) (hrest : next rest ≠ k) : next (v ++ rest) ≠ k := by
  cases v with
  | nil => exact hrest
  | cons k' v => exact fun he => hv (he ▸ List.mem_cons_self)

/-! ## Forms -/

/-- A field that is an expression announces itself as one. -/
theorem fieldForm?_expression (h : Derives [.rule .booleanExpression] v)
    (hk : next rest ∈ Rule.field.follow) : fieldForm? (v ++ rest) = some .expression := by
  obtain ⟨k, x, rfl, hfirst⟩ := h.head
  have hassign : Kind.assign ∉ k :: x := h.assign_notMem (by decide)
  have hdot : next rest ≠ .dot := ne_of_mem hk
  have hname : isName (next rest) = false := by
    revert hk
    generalize next rest = k
    revert k
    decide
  obtain ⟨y, hy, heq⟩ := exists_nameTail_append hdot hname x
  have htail : next (nameTail (x ++ rest)) ≠ .assign := by
    rw [heq]
    exact next_append_ne (fun hm => hassign (List.mem_cons_of_mem k (hy.subset hm)))
      (ne_of_mem hk)
  have hfirst : Rule.field.first.contains k = true := hfirst
  simp [fieldForm?, hfirst, htail]

/-- A field that is an assignment announces itself as one. -/
theorem fieldForm?_assignment
    (h : Derives [.rule .qualifiedName, .token .assign, .rule .booleanExpression] v)
    (rest : List Kind) : fieldForm? (v ++ rest) = some .assignment := by
  obtain ⟨u, _, rfl, hu, htail⟩ := h.cons_rule_inv
  obtain ⟨x, rfl, -⟩ := htail.cons_token_inv
  obtain ⟨l, body, hl, hr, hd⟩ := Derives.rule_iff.mp hu
  cases hl with
  | qualifiedName n =>
    have hdot : next (.assign :: (x ++ rest)) ≠ .dot := by
      rw [next_cons]
      decide
    obtain ⟨k, y, rfl, hname, htail⟩ := exists_name_of_derives hd hdot
    have hfirst : Rule.field.first.contains k = true := by
      rcases isName_eq hname with rfl | rfl <;> decide
    simp [fieldForm?, hfirst, hname, htail]
  | _ => cases hr

/-- A name announces itself, where no parenthesis comes next. -/
theorem primaryForm?_name (h : Derives [.rule .qualifiedName] v)
    (hk : next rest ∈ Rule.primaryExpression.follow) :
    primaryForm? (v ++ rest) = some .name := by
  obtain ⟨l, body, hl, hr, hd⟩ := Derives.rule_iff.mp h
  cases hl with
  | qualifiedName n =>
    have hdot : next rest ≠ .dot := ne_of_mem hk
    obtain ⟨k, x, rfl, hname, htail⟩ := exists_name_of_derives hd hdot
    have hparen : next (x ++ rest) ≠ .leftParen := by
      intro he
      rw [nameTail_of_next_ne (by rw [he]; decide)] at htail
      rw [htail] at he
      exact absurd he (ne_of_mem hk)
    have hconst : Rule.constant.first.contains k = false := by
      rcases isName_eq hname with rfl | rfl <;> decide
    have hne : k ≠ .leftParen := by rcases isName_eq hname with rfl | rfl <;> decide
    simp [primaryForm?, hconst, hne, hname, hparen]
  | _ => cases hr

/-- A call announces itself. -/
theorem primaryForm?_call (h : Derives (.rule .identifier :: .token .leftParen :: ss) v)
    (rest : List Kind) : primaryForm? (v ++ rest) = some .call := by
  obtain ⟨_, _, rfl, hu, htail⟩ := h.cons_rule_inv
  obtain ⟨k, rfl, hname⟩ := hu.identifier_inv
  obtain ⟨x, rfl, -⟩ := htail.cons_token_inv
  have hname : isName k = true := hname
  have hconst : Rule.constant.first.contains k = false := by
    rcases isName_eq hname with rfl | rfl <;> decide
  have hne : k ≠ .leftParen := by rcases isName_eq hname with rfl | rfl <;> decide
  simp [primaryForm?, hconst, hne, hname]

/-- An expression in parentheses announces itself. -/
theorem primaryForm?_parenthesized (h : Derives (.token .leftParen :: ss) v) (rest : List Kind) :
    primaryForm? (v ++ rest) = some .parenthesized := by
  obtain ⟨x, rfl, -⟩ := h.cons_token_inv
  have hconst : Rule.constant.first.contains .leftParen = false := by decide
  simp [primaryForm?, hconst]

/-- A clause that keeps a column announces itself, where no `=` comes next. -/
theorem clauseForm?_keep (h : Derives [.rule .sourceIdentifier] v) (hrest : next rest ≠ .assign) :
    clauseForm? (v ++ rest) = some .keep := by
  obtain ⟨k, rfl, hk⟩ := h.sourceIdentifier_inv
  have hfirst : Rule.projectClause.first.contains k = true := hk
  simp [clauseForm?, hfirst, hrest]

/-- A clause that renames a column announces itself. -/
theorem clauseForm?_rename (h : Derives (.rule .sourceIdentifier :: .token .assign :: ss) v)
    (rest : List Kind) : clauseForm? (v ++ rest) = some .rename := by
  obtain ⟨_, _, rfl, hu, htail⟩ := h.cons_rule_inv
  obtain ⟨k, rfl, hk⟩ := hu.sourceIdentifier_inv
  obtain ⟨x, rfl, -⟩ := htail.cons_token_inv
  have hfirst : Rule.projectClause.first.contains k = true := hk
  simp [clauseForm?, hfirst]

end PipeQuery.Parser

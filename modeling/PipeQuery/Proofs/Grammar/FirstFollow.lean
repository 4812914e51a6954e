import Mathlib.Data.List.Chain
import PipeQuery.Proofs.Grammar.Words

/-!
# First and follow sets against the grammar

The table of first and follow sets is composed by hand. It is the table of the grammar: it closes
under every alternative, so that it misses no kind, and each of its kinds has a reason in a single
alternative, so that it has no kind too many. The reasons go through rules of ever higher rank for
first sets and of ever lower rank for follow sets, which rules out kinds that only support
each other.

## Main definitions

* `Symbol.Fits`: two symbols that the table lets stand side by side
* `Rule.rank`: how deep in the grammar a rule stands
* `Sample`, `samples`: alternatives that give every kind of the table its reason

## Main results

* `Sentential.isChain_fits`: symbols side by side on the way from a full query to a word fit
* `Sentential.derive`: symbols on the way to a word can be replaced by what they stand for
* `Rule.first_follow_exact`: the first set of a rule holds the kinds that its words start with,
  and its follow set those that stand right behind it
-/

namespace PipeQuery

open Token (Kind KindSet)

/-! ## The table closes under the alternatives -/

namespace Symbol

/-- The table lets a kind stand right behind a symbol. Behind tokens it does not say. -/
def Admits : Symbol → Kind → Prop
  | .token _, _ => True
  | .rule r, k => k ∈ r.follow

instance decidableAdmits : ∀ (s : Symbol) (k : Kind), Decidable (s.Admits k)
  | .token _, _ => inferInstanceAs (Decidable True)
  | .rule r, k => inferInstanceAs (Decidable (k ∈ r.follow))

/-- The table lets two symbols stand side by side. -/
def Fits (s t : Symbol) : Prop := ∀ k, k ∈ t.first → s.Admits k

instance (s t : Symbol) : Decidable (s.Fits t) :=
  inferInstanceAs (Decidable (∀ k, k ∈ t.first → s.Admits k))

theorem fits_token (k : Kind) (t : Symbol) : Fits (.token k) t := fun _ _ => trivial

end Symbol

open PipeQuery.Symbol (Fits)

theorem isChain_token_cons {k : Kind} {row : List Symbol} (h : row.IsChain Fits) :
    (Symbol.token k :: row).IsChain Fits :=
  List.isChain_cons.mpr ⟨fun t _ => Symbol.fits_token k t, h⟩

theorem isChain_separated {s : Symbol} {separator : Kind} (h : Fits s (.token separator))
    (n : Nat) : (separated s separator n).IsChain Fits := by
  induction n with
  | zero => exact .singleton s
  | succ n ih =>
    obtain ⟨ss, hss⟩ := separated_eq_cons s separator n
    rw [separated, hss]
    rw [hss] at ih
    exact .cons_cons h (isChain_token_cons ih)

theorem getLast?_separated (s : Symbol) (separator : Kind) (n : Nat) :
    (separated s separator n).getLast? = some s := by
  cases n with
  | zero => rfl
  | succ n => rw [separated_succ, List.getLast?_append]; rfl

theorem fits_arithmeticOperator {k : Kind} (h : k ∈ arithmeticOperators.toList) :
    Fits (.rule .operatorExpression) (.token k) := by
  intro k' hk'
  rw [Symbol.mem_first_token.mp hk']
  revert h
  decide +revert

/-- Symbols side by side in an alternative fit. -/
theorem Production.isChain_fits {l : Label} {body : List Symbol} (h : Production l body) :
    body.IsChain Fits := by
  cases h with
  | sourceCommand | processingCommand | comparisonOperator | identifier | sourceIdentifier
  | booleanValue => exact .singleton _
  | fromCommand n | sortCommand n | projectCommand n =>
    exact isChain_token_cons (isChain_separated (by decide) n)
  | fields n | qualifiedName n | qualifiedNames n => exact isChain_separated (by decide) n
  | functionWith n =>
    have arguments : (separated (.rule .booleanExpression) .comma n ++
        [Symbol.token .rightParen]).IsChain Fits := by
      apply (isChain_separated (by decide) n).append (.singleton _)
      rw [getLast?_separated]
      rintro _ ⟨⟩ _ ⟨⟩
      decide
    exact .cons_cons (by decide) (isChain_token_cons arguments)
  | arithmeticUnary => exact isChain_token_cons (.singleton _)
  | arithmeticBinary h =>
    exact .cons_cons (fits_arithmeticOperator h) (isChain_token_cons (.singleton _))
  | logicalBinary h =>
    simp only [List.mem_cons, List.not_mem_nil, or_false] at h
    rcases h with rfl | rfl <;> decide
  | orderExpression horder hnulls =>
    simp only [List.mem_cons, List.not_mem_nil, or_false] at horder hnulls
    rcases horder with rfl | rfl | rfl <;> rcases hnulls with rfl | rfl | rfl <;> decide
  | _ => decide

/-- What follows a rule follows the last symbol of its alternatives. -/
theorem Production.admits_last {l : Label} {body : List Symbol} (h : Production l body)
    {s : Symbol} (hs : body.getLast? = some s) {k : Kind} (hk : k ∈ l.rule.follow) :
    s.Admits k := by
  cases h with
  | fromCommand n | sortCommand n | projectCommand n =>
    rw [List.getLast?_cons, getLast?_separated] at hs
    cases hs
    revert hk
    decide +revert
  | fields n | qualifiedName n | qualifiedNames n =>
    rw [getLast?_separated] at hs
    cases hs
    revert hk
    decide +revert
  | functionWith n =>
    rw [List.getLast?_append] at hs
    cases hs
    trivial
  | sourceCommand h | processingCommand h =>
    cases hs
    simp only [List.mem_cons, List.not_mem_nil, or_false] at h
    rcases h with rfl | rfl | rfl | rfl | rfl | rfl <;> exact hk
  | orderExpression horder hnulls =>
    simp only [List.mem_cons, List.not_mem_nil, or_false] at horder hnulls
    rcases horder with rfl | rfl | rfl <;> rcases hnulls with rfl | rfl | rfl <;> cases hs <;>
      first | trivial | (revert hk; decide +revert)
  | _ => cases hs; first | trivial | (revert hk; decide +revert)

/-- Putting an alternative in the place of its rule leaves a row whose neighbours fit. -/
theorem Production.isChain_replace {l : Label} {body before behind : List Symbol}
    (hl : Production l body) (h : (before ++ .rule l.rule :: behind).IsChain Fits) :
    (before ++ body ++ behind).IsChain Fits := by
  obtain ⟨s, ss, rfl, hfirst⟩ := hl.first_subset
  obtain ⟨hbefore, hrest, hleft⟩ := List.isChain_append.mp h
  obtain ⟨hright, hbehind⟩ := List.isChain_cons.mp hrest
  -- Only the two seams are new: what stood before the rule stands before the first symbol of the
  -- alternative, and what stood behind it stands behind the last one.
  apply (hbefore.append hl.isChain_fits _).append hbehind
  · intro x hx y hy k hk
    rw [List.getLast?_append_of_ne_nil _ (List.cons_ne_nil s ss)] at hx
    exact hl.admits_last hx (hright y hy k hk)
  · rintro x hx y ⟨⟩ k hk
    exact hleft x hx _ rfl k (hfirst k hk)

/-- **Neighbours on the way from a full query to a word fit.** -/
theorem Sentential.isChain_fits {row : List Symbol} (h : Sentential row) : row.IsChain Fits := by
  induction h with
  | start => exact .singleton _
  | step hl _ ih => exact hl.isChain_replace ih

/-! ## Every kind of the table has a reason -/

/-- How deep in the grammar a rule stands: deeper than a rule that it is a part of. Alternatives
that lead back up, as the one with parentheses does, are not counted. -/
def Rule.rank : Rule → Nat
  | .singleStatement => 0
  | .query => 1
  | .sourceCommand | .processingCommand => 2
  | .explainCommand | .fromCommand | .rowCommand | .evalCommand | .limitCommand
  | .projectCommand | .sortCommand | .statsCommand | .whereCommand => 3
  | .subqueryExpression | .fields | .qualifiedNames | .projectClause => 4
  | .field | .orderExpression => 5
  | .booleanExpression => 6
  | .valueExpression => 7
  | .operatorExpression => 8
  | .primaryExpression | .comparisonOperator => 9
  | .constant | .qualifiedName => 10
  | .identifier | .sourceIdentifier | .number | .booleanValue | .string => 11

/-- How deep a symbol stands. Tokens stand below all rules. -/
def Symbol.rank : Symbol → Nat
  | .token _ => 12
  | .rule r => r.rank

theorem Rule.rank_lt (r : Rule) : r.rank < 12 := by
  cases r <;> decide

/-- An alternative, as a value. -/
structure Sample where
  {label : Label}
  {body : List Symbol}
  production : Production label body

/-- The alternatives that are a single row of symbols. -/
def rowSamples : List Sample :=
  [⟨.singleStatement⟩, ⟨.singleCommandQuery⟩, ⟨.compositeQuery⟩, ⟨.whereCommand⟩, ⟨.rowCommand⟩,
    ⟨.evalCommand⟩, ⟨.statsCommand⟩, ⟨.statsCommandBy⟩, ⟨.limitCommand⟩, ⟨.explainCommand⟩,
    ⟨.subqueryExpression⟩, ⟨.keep⟩, ⟨.rename⟩, ⟨.field⟩, ⟨.assignment⟩, ⟨.logicalNot⟩,
    ⟨.booleanDefault⟩, ⟨.valueExpressionDefault⟩, ⟨.comparison⟩, ⟨.operatorExpressionDefault⟩,
    ⟨.constantDefault⟩, ⟨.dereference⟩, ⟨.parenthesizedExpression⟩, ⟨.functionWithout⟩,
    ⟨.nullLiteral⟩, ⟨.numericLiteral⟩, ⟨.booleanLiteral⟩, ⟨.stringLiteral⟩, ⟨.decimalLiteral⟩,
    ⟨.integerLiteral⟩, ⟨.string⟩]

/-- The alternatives with a list of `n + 1` items. -/
def listSamples (n : Nat) : List Sample :=
  [⟨.fromCommand n⟩, ⟨.sortCommand n⟩, ⟨.projectCommand n⟩, ⟨.fields n⟩, ⟨.functionWith n⟩,
    ⟨.qualifiedName n⟩, ⟨.qualifiedNames n⟩]

/-- The alternatives with a choice of commands, of operators or of words, once for each member of
the list that their constructor chooses from. -/
def choiceSamples : List Sample :=
  (List.attach _).map (⟨.sourceCommand ·.2⟩) ++
  (List.attach _).map (⟨.processingCommand ·.2⟩) ++
  (List.attach _).map (⟨.logicalBinary ·.2⟩) ++
  (List.attach _).map (⟨.comparisonOperator ·.2⟩) ++
  (List.attach _).map (⟨.arithmeticUnary ·.2⟩) ++
  (List.attach _).map (⟨.arithmeticBinary ·.2⟩) ++
  (List.attach _).map (⟨.identifier ·.2⟩) ++
  (List.attach _).map (⟨.sourceIdentifier ·.2⟩) ++
  (List.attach _).map (⟨.booleanValue ·.2⟩) ++
  (List.attach _).flatMap fun order => (List.attach _).map (⟨.orderExpression order.2 ·.2⟩)

/-- Enough alternatives to see every kind that starts a rule or stands behind one. -/
def samples : List Sample := rowSamples ++ listSamples 0 ++ listSamples 1 ++ choiceSamples

/-- Every rule but that of a full query stands in an alternative of a rule of lower rank. -/
theorem Rule.exists_user (r : Rule) : r = .singleStatement ∨
    ∃ a ∈ samples, a.label.rule.rank < r.rank ∧ .rule r ∈ a.body := by
  cases r <;> decide +kernel

/-- A kind of the first set starts the first symbol, of higher rank, of some alternative. -/
theorem Rule.exists_starter (r : Rule) : ∀ k, k ∈ r.first → ∃ a ∈ samples, a.label.rule = r ∧
    ∃ s ∈ a.body, [s] <+: a.body ∧ r.rank < s.rank ∧ k ∈ s.first := by
  cases r <;> decide +kernel

/-- A kind of the follow set has a reason in some alternative with the rule: it starts what stands
behind the rule there, or it follows the rule of the alternative, which is of lower rank, and the
alternative ends with this one. -/
theorem Rule.exists_follower (r : Rule) : ∀ k, k ∈ r.follow →
    ∃ a ∈ samples, .rule r ∈ a.body ∧ ((∃ s ∈ a.body, k ∈ s.first ∧ [.rule r, s] <:+: a.body) ∨
      k ∈ a.label.rule.follow ∧ a.label.rule.rank < r.rank ∧ [.rule r] <:+ a.body) := by
  cases r <;> decide +kernel

/-! ## First sets -/

theorem exists_derives_row (row : List Symbol) : ∃ w, Derives row w := by
  induction row with
  | nil => exact ⟨[], .nil⟩
  | cons s row ih =>
    obtain ⟨w, hw⟩ := ih
    cases s with
    | token k => exact ⟨k :: w, .token hw⟩
    | rule r =>
      obtain ⟨v, hv⟩ := r.exists_derives
      exact ⟨v ++ w, hv.cons_rule hw⟩

/-- A kind that the table lets start a symbol starts a word of it. -/
theorem Symbol.exists_derives_cons {s : Symbol} {k : Kind} (h : k ∈ s.first) :
    ∃ w, Derives [s] (k :: w) := by
  -- By induction on how far above the tokens the symbol stands.
  induction hd : 12 - s.rank using Nat.strong_induction_on generalizing s with
  | _ d ih =>
    subst hd
    cases s with
    | token k' =>
      rw [mem_first_token.mp h]
      exact ⟨[], .singleton k'⟩
    | rule r =>
      obtain ⟨@⟨l, _, hl⟩, -, rfl, s, -, ⟨ss, rfl⟩, hrank, hk⟩ := r.exists_starter k h
      have hlt : 12 - s.rank < 12 - l.rule.rank := Nat.sub_lt_sub_left l.rule.rank_lt hrank
      obtain ⟨v, hv⟩ := ih (12 - s.rank) hlt hk rfl
      obtain ⟨w, hw⟩ := exists_derives_row ss
      exact ⟨v ++ w, .of_production hl (hv.append hw)⟩

/-- **First sets are exact.** -/
theorem Rule.mem_first_iff {r : Rule} {k : Kind} :
    k ∈ r.first ↔ ∃ w, Derives [.rule r] (k :: w) := by
  constructor
  · exact Symbol.exists_derives_cons (s := .rule r)
  · rintro ⟨w, hw⟩
    obtain ⟨k', v, hkw, hk⟩ := hw.head
    cases hkw
    exact hk

/-! ## Follow sets -/

/-- **Symbols on the way to a word can be replaced by what they stand for.** -/
theorem Sentential.derive {before row behind : List Symbol} {w : List Kind} (hd : Derives row w)
    (h : Sentential (before ++ row ++ behind)) :
    Sentential (before ++ w.map .token ++ behind) := by
  induction hd generalizing before behind with
  | nil => exact h
  | @token k ss w _ ih =>
    have h : Sentential ((before ++ [.token k]) ++ ss ++ behind) := by simpa using h
    simpa using ih h
  | @rule l body ss v w hl _ _ ihv ihw =>
    have hbody : Sentential (before ++ body ++ (ss ++ behind)) := .step hl (by simpa using h)
    have hss : Sentential ((before ++ v.map .token) ++ ss ++ behind) := by
      simpa using ihv hbody
    simpa using ihw hss

/-- A kind that starts a symbol stands in its place in some row on the way to a word. -/
theorem Sentential.exists_token {before behind : List Symbol} {s : Symbol} {k : Kind}
    (h : Sentential (before ++ s :: behind)) (hk : k ∈ s.first) :
    ∃ behind', Sentential (before ++ .token k :: behind') := by
  obtain ⟨w, hw⟩ := Symbol.exists_derives_cons hk
  have h : Sentential (before ++ [s] ++ behind) := by simpa using h
  exact ⟨w.map .token ++ behind, by simpa using h.derive hw⟩

/-- **Every rule stands on the way from a full query to a word.** -/
theorem Rule.exists_sentential (r : Rule) :
    ∃ before behind, Sentential (before ++ .rule r :: behind) := by
  induction hd : r.rank using Nat.strong_induction_on generalizing r with
  | _ d ih =>
    subst hd
    obtain rfl | ⟨⟨hl⟩, -, hrank, hmem⟩ := r.exists_user
    · exact ⟨[], [], .start⟩
    · obtain ⟨before, behind, h⟩ := ih _ hrank _ rfl
      obtain ⟨left, right, rfl⟩ := List.append_of_mem hmem
      exact ⟨before ++ left, right ++ behind, by simpa using h.step hl⟩

/-- A kind that the table lets stand behind a rule does so in some row on the way to a word. -/
theorem Rule.exists_sentential_token {r : Rule} {k : Kind} (hk : k ∈ r.follow) :
    ∃ before behind, Sentential (before ++ .rule r :: .token k :: behind) := by
  induction hd : r.rank using Nat.strong_induction_on generalizing r with
  | _ d ih =>
    subst hd
    obtain ⟨@⟨l, _, hl⟩, -, -, ⟨s, -, hs, left, right, rfl⟩ | ⟨hk, hrank, left, rfl⟩⟩ :=
      r.exists_follower k hk
    · -- The kind starts the symbol that stands behind the rule in the alternative.
      obtain ⟨before, behind, h⟩ := l.rule.exists_sentential
      have h := h.step hl
      have h : Sentential ((before ++ left ++ [.rule r]) ++ s :: (right ++ behind)) := by
        simpa using h
      obtain ⟨behind', h⟩ := h.exists_token hs
      exact ⟨before ++ left, behind', by simpa using h⟩
    · -- The kind stands behind a rule that ends with this one.
      obtain ⟨before, behind, h⟩ := ih _ hrank hk rfl
      exact ⟨before ++ left, behind, by simpa using h.step hl⟩

/-- **Follow sets are exact.** -/
theorem Rule.mem_follow_iff {r : Rule} {k : Kind} :
    k ∈ r.follow ↔ ∃ before behind, Sentential (before ++ .rule r :: .token k :: behind) := by
  constructor
  · exact exists_sentential_token
  · rintro ⟨before, behind, h⟩
    obtain ⟨-, hrest, -⟩ := List.isChain_append.mp h.isChain_fits
    exact (List.isChain_cons_cons.mp hrest).1 k (Symbol.mem_first_token.mpr rfl)

/-- **The table of first and follow sets is that of the grammar.** A kind is in the first set of a
rule if and only if it starts some word of the rule, and in its follow set if and only if it stands
right behind the rule in some row on the way from a full query to a word. -/
theorem Rule.first_follow_exact (r : Rule) (k : Kind) :
    (k ∈ r.first ↔ ∃ w, Derives [.rule r] (k :: w)) ∧
      (k ∈ r.follow ↔
        ∃ before behind, Sentential (before ++ .rule r :: .token k :: behind)) :=
  ⟨mem_first_iff, mem_follow_iff⟩

end PipeQuery

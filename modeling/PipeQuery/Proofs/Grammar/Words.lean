import PipeQuery.Grammar.Precedence
import PipeQuery.Grammar.Production

/-!
# The words of the grammar

What can be said of a word from the rule that it is derived from: the kind it starts with, that it
is not empty, and which kinds it never holds. Every rule stands for some word.

## Main definitions

* `Symbol.first`: the kinds that can start a symbol
* `Symbol.isOperand`: the symbols that can stand below a boolean expression

## Main results

* `Derives.head`: a word starts with a kind of the first set of its first symbol
* `Derives.ne_nil`: a rule stands for no empty word
* `Rule.exists_derives`: a rule stands for some word
* `Derives.assign_notMem`: a word of a boolean expression holds no `=`
-/

namespace PipeQuery

open Token (Kind KindSet)

instance decidableForallKind (p : Kind → Prop) [DecidablePred p] : Decidable (∀ k, p k) :=
  decidable_of_iff (∀ k ∈ Kind.all, p k) ⟨fun h k => h k (Kind.mem_all k), fun h k _ => h k⟩

/-! ## How words start -/

/-- The kinds that can start a symbol. -/
def Symbol.first : Symbol → KindSet
  | .token k => .ofList [k]
  | .rule r => r.first

theorem Symbol.mem_first_token {k k' : Kind} : k' ∈ (Symbol.token k).first ↔ k' = k := by
  simp [Symbol.first, KindSet.mem_def]

theorem separated_eq_cons (s : Symbol) (separator : Kind) (n : Nat) :
    ∃ ss, separated s separator n = s :: ss := by
  cases n <;> exact ⟨_, rfl⟩

theorem separated_succ (s : Symbol) (separator : Kind) (n : Nat) :
    separated s separator (n + 1) = separated s separator n ++ [.token separator, s] := by
  induction n with
  | zero => rfl
  | succ n ih =>
    show s :: .token separator :: separated s separator (n + 1) =
      s :: .token separator :: (separated s separator n ++ [.token separator, s])
    rw [ih]

/-- What starts the first symbol of an alternative starts its rule. -/
theorem Production.first_subset {l : Label} {body : List Symbol} (h : Production l body) :
    ∃ s ss, body = s :: ss ∧ ∀ k, k ∈ s.first → k ∈ l.rule.first := by
  cases h with
  | sourceCommand h | processingCommand h =>
    refine ⟨_, _, rfl, ?_⟩
    simp only [List.mem_cons, List.not_mem_nil, or_false] at h
    rcases h with rfl | rfl | rfl | rfl | rfl | rfl <;> decide
  | fields n | qualifiedName n | qualifiedNames n =>
    obtain ⟨ss, hs⟩ := separated_eq_cons _ _ n
    exact ⟨_, ss, hs, by decide⟩
  | comparisonOperator h =>
    refine ⟨_, _, rfl, fun k' hk => ?_⟩
    rw [Symbol.mem_first_token.mp hk]
    exact KindSet.mem_toList.mp h
  | arithmeticUnary h | identifier h | sourceIdentifier h | booleanValue h =>
    refine ⟨_, _, rfl, fun k' hk => ?_⟩
    rw [Symbol.mem_first_token.mp hk]
    simp only [List.mem_cons, List.not_mem_nil, or_false] at h
    rcases h with rfl | rfl <;> decide
  | _ => exact ⟨_, _, rfl, by decide⟩

/-- **A word starts as its first symbol can start.** -/
theorem Derives.head {s : Symbol} {ss : List Symbol} {w : List Kind} (h : Derives (s :: ss) w) :
    ∃ k v, w = k :: v ∧ k ∈ s.first := by
  generalize hrow : s :: ss = row at h
  induction h generalizing s ss with
  | nil => cases hrow
  | token =>
    obtain ⟨rfl, rfl⟩ := List.cons.inj hrow
    exact ⟨_, _, rfl, Symbol.mem_first_token.mpr rfl⟩
  | rule hl _ _ ih =>
    obtain ⟨rfl, rfl⟩ := List.cons.inj hrow
    obtain ⟨t, ts, hbody, hsub⟩ := hl.first_subset
    obtain ⟨k, v, rfl, hk⟩ := ih hbody.symm
    exact ⟨k, _, rfl, hsub k hk⟩

theorem Derives.ne_nil {s : Symbol} {ss : List Symbol} {w : List Kind}
    (h : Derives (s :: ss) w) : w ≠ [] := by
  obtain ⟨k, v, rfl, -⟩ := h.head
  exact List.cons_ne_nil k v

theorem Derives.cons_rule_inv {r : Rule} {ss : List Symbol} {w : List Kind}
    (h : Derives (.rule r :: ss) w) :
    ∃ u v, w = u ++ v ∧ Derives [.rule r] u ∧ Derives ss v := by
  have h : Derives ([.rule r] ++ ss) w := h
  exact h.split

theorem Derives.cons_token_inv {k : Kind} {ss : List Symbol} {w : List Kind}
    (h : Derives (.token k :: ss) w) : ∃ v, w = k :: v ∧ Derives ss v := by
  cases h with
  | token h => exact ⟨_, rfl, h⟩

/-- A full query is a query and the end of the input. -/
theorem Derives.statement_inv {w : List Kind}
    (h : Derives [.rule .singleStatement] (w ++ [.endOfInput])) : Derives [.rule .query] w := by
  obtain ⟨l, body, hl, hr, hd⟩ := Derives.rule_iff.mp h
  cases hl with
  | singleStatement =>
    obtain ⟨u, v, huv, hu, hv⟩ := hd.cons_rule_inv
    obtain ⟨_, rfl, hnil⟩ := hv.cons_token_inv
    cases hnil
    rwa [List.append_cancel_right huv]
  | _ => cases hr

theorem Derives.identifier_inv {w : List Kind} (h : Derives [.rule .identifier] w) :
    ∃ k, w = [k] ∧ k ∈ Rule.identifier.first := by
  obtain ⟨l, body, hl, hr, hd⟩ := Derives.rule_iff.mp h
  cases hl with
  | identifier hk =>
    obtain ⟨_, rfl, hnil⟩ := hd.cons_token_inv
    cases hnil
    exact ⟨_, rfl, KindSet.mem_toList.mp hk⟩
  | _ => cases hr

theorem Derives.sourceIdentifier_inv {w : List Kind} (h : Derives [.rule .sourceIdentifier] w) :
    ∃ k, w = [k] ∧ k ∈ Rule.sourceIdentifier.first := by
  obtain ⟨l, body, hl, hr, hd⟩ := Derives.rule_iff.mp h
  cases hl with
  | sourceIdentifier hk =>
    obtain ⟨_, rfl, hnil⟩ := hd.cons_token_inv
    cases hnil
    exact ⟨_, rfl, KindSet.mem_toList.mp hk⟩
  | _ => cases hr

/-! ## Every rule stands for some word -/

/-- A rule stands for the words of each of its alternatives. -/
theorem Derives.of_production {l : Label} {body : List Symbol} {w : List Kind}
    (hl : Production l body) (h : Derives body w) : Derives [.rule l.rule] w := by
  simpa using Derives.rule hl h .nil

/-- Put the word of a rule before that of the symbols behind it. -/
theorem Derives.cons_rule {r : Rule} {ss : List Symbol} {v w : List Kind}
    (hv : Derives [.rule r] v) (hw : Derives ss w) : Derives (.rule r :: ss) (v ++ w) :=
  hv.append hw

theorem Derives.singleton (k : Kind) : Derives [.token k] [k] := .token .nil

/-- **A rule stands for some word.** -/
theorem Rule.exists_derives (r : Rule) : ∃ w, Derives [.rule r] w := by
  -- Words are put together from the leaves upwards, along one alternative of each rule that does
  -- not lead back to the rule.
  have identifier : Derives [.rule .identifier] [.name] :=
    .of_production (.identifier (by decide)) (.singleton _)
  have sourceIdentifier : Derives [.rule .sourceIdentifier] [.sourceName] :=
    .of_production (.sourceIdentifier (by decide)) (.singleton _)
  have qualifiedName := Derives.of_production (.qualifiedName 0) identifier
  have primary := Derives.of_production .dereference qualifiedName
  have operator := Derives.of_production .operatorExpressionDefault primary
  have value := Derives.of_production .valueExpressionDefault operator
  have boolean := Derives.of_production .booleanDefault value
  have field := Derives.of_production .field boolean
  have fields := Derives.of_production (.fields 0) field
  have whereCommand := Derives.of_production .whereCommand (.token boolean)
  have fromCommand := Derives.of_production (.fromCommand 0) (.token sourceIdentifier)
  have source := Derives.of_production (.sourceCommand (r := .fromCommand) (by decide)) fromCommand
  have query := Derives.of_production .singleCommandQuery source
  have subquery := Derives.of_production .subqueryExpression
    (.token (query.cons_rule (.singleton .rightBracket)))
  have order := Derives.of_production
    (@Production.orderExpression [] [] (by decide) (by decide)) boolean
  have clause := Derives.of_production .keep sourceIdentifier
  have number := Derives.of_production .integerLiteral (.singleton _)
  cases r with
  | singleStatement =>
    exact ⟨_, .of_production .singleStatement (query.cons_rule (.singleton .endOfInput))⟩
  | query => exact ⟨_, query⟩
  | sourceCommand => exact ⟨_, source⟩
  | processingCommand =>
    exact ⟨_, .of_production (.processingCommand (r := .whereCommand) (by decide)) whereCommand⟩
  | whereCommand => exact ⟨_, whereCommand⟩
  | booleanExpression => exact ⟨_, boolean⟩
  | valueExpression => exact ⟨_, value⟩
  | operatorExpression => exact ⟨_, operator⟩
  | primaryExpression => exact ⟨_, primary⟩
  | rowCommand => exact ⟨_, .of_production .rowCommand (.token fields)⟩
  | fields => exact ⟨_, fields⟩
  | field => exact ⟨_, field⟩
  | fromCommand => exact ⟨_, fromCommand⟩
  | evalCommand => exact ⟨_, .of_production .evalCommand (.token fields)⟩
  | statsCommand => exact ⟨_, .of_production .statsCommand (.token fields)⟩
  | sourceIdentifier => exact ⟨_, sourceIdentifier⟩
  | qualifiedName => exact ⟨_, qualifiedName⟩
  | qualifiedNames => exact ⟨_, .of_production (.qualifiedNames 0) qualifiedName⟩
  | identifier => exact ⟨_, identifier⟩
  | constant => exact ⟨_, .of_production .nullLiteral (.singleton _)⟩
  | limitCommand => exact ⟨_, .of_production .limitCommand (.token (.singleton _))⟩
  | sortCommand => exact ⟨_, .of_production (.sortCommand 0) (.token order)⟩
  | orderExpression => exact ⟨_, order⟩
  | projectCommand => exact ⟨_, .of_production (.projectCommand 0) (.token clause)⟩
  | projectClause => exact ⟨_, clause⟩
  | booleanValue =>
    exact ⟨_, .of_production (.booleanValue (k := .trueWord) (by decide)) (.singleton _)⟩
  | number => exact ⟨_, number⟩
  | string => exact ⟨_, .of_production .string (.singleton _)⟩
  | comparisonOperator =>
    exact ⟨_, .of_production (.comparisonOperator (k := .equal) (by decide)) (.singleton _)⟩
  | explainCommand => exact ⟨_, .of_production .explainCommand (.token subquery)⟩
  | subqueryExpression => exact ⟨_, subquery⟩

/-! ## No assignment below an expression -/

/-- Whether a symbol can stand below a boolean expression. Only the `=` of assignments matters. -/
def Symbol.isOperand : Symbol → Bool
  | .token k => k != .assign
  | .rule r =>
    [Rule.booleanExpression, .valueExpression, .operatorExpression, .primaryExpression,
      .qualifiedName, .identifier, .constant, .number, .booleanValue, .string,
      .comparisonOperator].contains r

theorem mem_separated {s t : Symbol} {separator : Kind} {n : Nat}
    (h : t ∈ separated s separator n) : t = s ∨ t = .token separator := by
  induction n with
  | zero => exact .inl (List.mem_singleton.mp h)
  | succ n ih =>
    simp only [separated, List.mem_cons] at h
    exact h.elim .inl fun h => h.elim .inr ih

theorem Production.isOperand_of_mem {l : Label} {body : List Symbol} (h : Production l body)
    (hl : (Symbol.rule l.rule).isOperand = true) : ∀ s ∈ body, s.isOperand = true := by
  cases h with
  | logicalBinary h | arithmeticUnary h | identifier h | booleanValue h =>
    simp only [List.mem_cons, List.not_mem_nil, or_false] at h
    rcases h with rfl | rfl <;> decide
  | comparisonOperator h | arithmeticBinary h =>
    intro s hs
    simp only [List.mem_cons, List.not_mem_nil, or_false] at hs
    have hk := KindSet.mem_toList.mp h
    rcases hs with rfl | rfl | rfl <;> first | rfl | (revert hk; revert h; decide +revert)
  | functionWith n =>
    intro s hs
    simp only [List.cons_append, List.mem_cons, List.mem_append, List.not_mem_nil, or_false] at hs
    rcases hs with rfl | rfl | hs | rfl <;> try rfl
    rcases mem_separated hs with rfl | rfl <;> rfl
  | qualifiedName n =>
    intro s hs
    rcases mem_separated hs with rfl | rfl <;> rfl
  | _ => first | exact absurd hl (by decide) | decide

/-- **A word of a boolean expression holds no `=`.** -/
theorem Derives.assign_notMem {ss : List Symbol} {w : List Kind} (h : Derives ss w)
    (hs : ∀ s ∈ ss, s.isOperand = true) : Kind.assign ∉ w := by
  induction h with
  | nil => exact List.not_mem_nil
  | token _ ih =>
    obtain ⟨hk, hs⟩ := List.forall_mem_cons.mp hs
    rintro (_ | ⟨_, h⟩)
    · exact absurd hk (by decide)
    · exact ih hs h
  | rule hl _ _ ihv ihw =>
    obtain ⟨hr, hs⟩ := List.forall_mem_cons.mp hs
    rw [List.mem_append]
    exact fun h => h.elim (ihv (hl.isOperand_of_mem hr)) (ihw hs)

end PipeQuery

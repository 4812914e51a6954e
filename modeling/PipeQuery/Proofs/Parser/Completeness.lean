import PipeQuery.Proofs.Parser.Forms
import PipeQuery.Proofs.Parser.Resumption

/-!
# Every word of the grammar is read

A stratified word is read to its end wherever a token comes next that can follow it, and the node
read has the shape of the stratified tree. So no two stratified trees have the same word.

## Main results

* `Ready.resumes`: the rule of a node comes to read on behind it
* `Groups.reads`: a stratified word is read, before a token that closes it
* `Groups.unique`: a word has one stratified tree at most
-/

namespace PipeQuery.Parser

open Token (Kind KindSet)
open Script

variable {r : Rule} {f : Nat} {l : Label} {body gs : List Goal} {ss : List Symbol}
  {us ts : List Shape} {t : Shape} {v w rest : List Kind} {o : Outcome} {p : Script} {K : KindSet}

theorem Ready.derives (h : Ready gs ts w) : Derives (gs.map Goal.symbol) w := by
  induction h with
  | nil => exact .nil
  | token _ ih => exact .token ih
  | rule hn _ _ ih => exact hn.derives.append ih

/-! ## Orders, groups, comparisons and calls -/

theorem Ready.reads_nulls {nulls : List Symbol}
    (hnulls : nulls ∈ [[], [.token .nullsWord, .token .firstWord],
      [.token .nullsWord, .token .lastWord]])
    (h : Ready (ground nulls) us v) (hk : next rest ∈ Rule.orderExpression.follow)
    {b : List Shape} (hp : Reads done ⟨l, b ++ us⟩ rest o) :
    Reads (go .nulls) ⟨l, b⟩ (v ++ rest) o := by
  have hnone : next rest ≠ .nullsWord := ne_of_mem hk
  simp only [List.mem_cons, List.not_mem_nil, or_false] at hnulls
  rcases hnulls with rfl | rfl | rfl
  · cases h
    refine .go ?_
    rw [Phase.script, List.nil_append, if_neg hnone]
    simpa using hp
  all_goals
    obtain _ | h := h
    obtain _ | h := h
    cases h
    exact .go (.token (.take (by decide) (by simpa [Draft.add] using hp)))

theorem Ready.reads_direction {order : List Symbol}
    (horder : order ∈ [[], [.token .ascWord], [.token .descWord]])
    (h : Ready (ground order) us v) (hasc : next rest ≠ .ascWord) (hdesc : next rest ≠ .descWord)
    {b : List Shape} (hp : Reads (go .nulls) ⟨l, b ++ us⟩ rest o) :
    Reads (go .direction) ⟨l, b⟩ (v ++ rest) o := by
  simp only [List.mem_cons, List.not_mem_nil, or_false] at horder
  rcases horder with rfl | rfl | rfl
  · cases h
    refine .go ?_
    simp only [Phase.script, List.nil_append, hasc, hdesc, decide_false, Bool.or_self,
      Bool.false_eq_true, if_false]
    simpa using hp
  all_goals
    obtain _ | h := h
    cases h
    exact .go (.token hp)

theorem Ready.reads_order {order nulls : List Symbol}
    (horder : order ∈ [[], [.token .ascWord], [.token .descWord]])
    (hnulls : nulls ∈ [[], [.token .nullsWord, .token .firstWord],
      [.token .nullsWord, .token .lastWord]])
    (h : Ready (ground (.rule .booleanExpression :: order ++ nulls)) us v)
    (hk : next rest ∈ Rule.orderExpression.follow) (hp : Reads done ⟨l, us⟩ rest o) :
    Reads (opening .orderExpression f (v ++ rest)) ⟨l, []⟩ (v ++ rest) o := by
  rw [List.cons_append, ground_cons, ground_append] at h
  obtain ⟨us, vs, u, v, rfl, rfl, hu, hv⟩ :=
    Ready.split (ground [.rule .booleanExpression]) h
  obtain ⟨ts, vs, x, y, rfl, rfl, hx, hy⟩ := Ready.split (ground order) hv
  -- What comes behind the expression, and what behind the direction.
  have hlast : next (y ++ rest) ∈ Rule.orderExpression.follow ∪ .ofList [.nullsWord] := by
    have hmem := hy.next_mem hk
    simp only [List.mem_cons, List.not_mem_nil, or_false] at hnulls
    rcases hnulls with rfl | rfl | rfl <;> revert hmem <;> generalize next (y ++ rest) = k <;>
      revert k <;> decide
  have hnext : next (x ++ (y ++ rest)) ∈
      Rule.orderExpression.follow ∪ .ofList [.nullsWord, .ascWord, .descWord] := by
    have hmem := hx.next_mem hlast
    simp only [List.mem_cons, List.not_mem_nil, or_false] at horder
    rcases horder with rfl | rfl | rfl <;> revert hmem <;>
      generalize next (x ++ (y ++ rest)) = k <;> revert k <;> decide
  rw [List.append_assoc, List.append_assoc]
  refine hu.reads (p := go .direction) hnext ?_
  refine hx.reads_direction horder (ne_of_mem hlast) (ne_of_mem hlast) ?_
  refine hy.reads_nulls hnulls hk ?_
  simpa using hp

theorem Ready.reads_arguments {n : Nat}
    (h : Ready (ground (separated (.rule .booleanExpression) .comma n ++ [.token .rightParen])) us v)
    {b : List Shape} (hp : Reads done ⟨l, b ++ us⟩ rest o) :
    Reads (go .arguments) ⟨l, b⟩ (v ++ rest) o := by
  rw [ground_append] at h
  obtain ⟨us, vs, u, v, rfl, rfl, hu, hv⟩ := Ready.split _ h
  obtain _ | hv := hv
  cases hv
  -- The script tells a call without arguments by its closing parenthesis.
  have hfirst : next (u ++ .rightParen :: rest) ≠ .rightParen := by
    obtain ⟨ss, hs⟩ := separated_eq_cons (.rule .booleanExpression) .comma n
    rw [hs] at hu
    have hmem : next (u ++ .rightParen :: rest) ∈ Rule.booleanExpression.first :=
      hu.next_mem (K := .ofList [.rightParen]) (by simp [KindSet.mem_def])
    exact ne_of_mem hmem
  rw [List.append_assoc]
  refine .go ?_
  rw [Phase.script, List.cons_append, List.nil_append, if_pos hfirst]
  refine hu.reads_series (s := .arguments) (K := .ofList [.rightParen])
    (by simp [KindSet.mem_def]) ?_
  exact .token (by simpa [Draft.add] using hp)

/-- Fields with names to group by. -/
theorem Ready.reads_grouped
    (h : Ready (ground [.token .statsCmd, .rule .fields, .token .byWord, .rule .qualifiedNames]) us v)
    (hk : next rest ∈ Rule.statsCommand.follow) (hp : Reads done ⟨l, us⟩ rest o) :
    Reads (opening .statsCommand f (v ++ rest)) ⟨l, []⟩ (v ++ rest) o := by
  obtain ⟨us, vs, u, v, rfl, rfl, hu, hv⟩ :=
    Ready.split (ground [.token .statsCmd, .rule .fields]) h
  have hby := hv.next_mem hk
  rw [List.append_assoc]
  refine hu.reads (p := go .grouping) (K := .ofList [.byWord]) hby (.go ?_)
  rw [Phase.script, if_pos (Symbol.mem_first_token.mp hby)]
  exact hv.reads hk hp

/-- Two operands with a comparison operator between them. -/
theorem Ready.reads_comparison
    (h : Ready (ground [.rule .operatorExpression, .rule .comparisonOperator,
      .rule .operatorExpression]) us v)
    (hk : next rest ∈ Rule.valueExpression.follow) (hp : Reads done ⟨.comparison, us⟩ rest o) :
    Reads (opening .valueExpression f (v ++ rest)) ⟨l, []⟩ (v ++ rest) o := by
  obtain ⟨us, vs, u, v, rfl, rfl, hu, hv⟩ := Ready.split (ground [.rule .operatorExpression]) h
  have hnext : next (v ++ rest) ∈ comparisonOperators := hv.next_mem hk
  rw [List.append_assoc]
  refine hu.reads (p := go .comparison) hnext (.go ?_)
  rw [Phase.script, if_pos (KindSet.mem_def.mp hnext)]
  exact .step rfl (hv.reads hk hp)

/-- A call without arguments. -/
theorem Ready.reads_noArguments (h : Ready (ground [.token .rightParen]) us v) {b : List Shape}
    (hp : Reads done ⟨l, b ++ us⟩ rest o) : Reads (go .arguments) ⟨l, b⟩ (v ++ rest) o := by
  obtain _ | hnil := h
  cases hnil
  refine .go ?_
  rw [Phase.script, List.cons_append, next_cons, if_neg (not_not_intro rfl)]
  exact .token hp

/-- A call, up to its parenthesis, before its arguments. -/
theorem Ready.reads_call (h : Ready (ground (.rule .identifier :: .token .leftParen :: ss)) us v)
    (hargs : ∀ b vs x, Ready (ground ss) vs x → us = b ++ vs →
      Reads (go .arguments) ⟨.functionExpression, b⟩ (x ++ rest) o) :
    Reads (opening .primaryExpression f (v ++ rest)) (.fresh .primaryExpression) (v ++ rest) o := by
  simp only [opening, primaryForm?_call h.derives]
  obtain ⟨us, vs, u, x, rfl, rfl, hu, hv⟩ := Ready.split (ground [.rule .identifier]) h
  obtain _ | hv := hv
  rw [List.append_assoc, List.cons_append]
  refine .step rfl (hu.reads (b := []) (p := .token .leftParen (go .arguments))
    (K := .ofList [.leftParen]) (Symbol.mem_first_token.mpr rfl) (.token ?_))
  exact hargs _ _ _ hv (by simp)

/-! ## Every rule -/

/-- The script of a rule whose next token announces one of several rules. -/
theorem Ready.reads_choice {first : Kind → Option Rule} {expected : KindSet} {r' : Rule}
    (h : Ready (ground [.rule r']) us v) (hk : next rest ∈ K)
    (hp : Reads done ⟨l, us⟩ rest o) (hc : Closed K (ground [.rule r']) := by decide)
    (hfirst : ∀ k, k ∈ r'.first → first k = some r' := by decide) :
    Reads (choice first expected (v ++ rest)) ⟨l, []⟩ (v ++ rest) o := by
  rw [choice, hfirst _ (h.next_mem hk)]
  exact h.reads hk hp hc

theorem mem_number {k : Kind} (h : k ∈ Rule.number.first) : k = .decimal ∨ k = .integer := by
  revert k
  decide

theorem mem_booleanValue {k : Kind} (h : k ∈ Rule.booleanValue.first) :
    k = .trueWord ∨ k = .falseWord := by
  revert k
  decide

theorem Ready.resumes_plain (hl : Production l ss) (ho : l.isOperation = false)
    (h : Ready (ground ss) us v) : Resumes l.rule f ⟨l, us⟩ v := by
  intro rest o hb hp
  have hk := hb.follow
  -- Most scripts read the body of their production in order. The others first take a form by the
  -- tokens to come, and it has to be shown that the word announces the form that it has.
  cases hl with
  | singleStatement => exact absurd hk (by simp [Label.rule, Rule.follow, KindSet.mem_def])
  | singleCommandQuery => exact .step rfl (h.reads hk hp)
  | compositeQuery => exact h.resumes_composite rest o hb hp
  | sourceCommand hr =>
    simp only [List.mem_cons, List.not_mem_nil, or_false] at hr
    rcases hr with rfl | rfl | rfl <;> exact h.reads_choice hk hp
  | processingCommand hr =>
    simp only [List.mem_cons, List.not_mem_nil, or_false] at hr
    rcases hr with rfl | rfl | rfl | rfl | rfl | rfl <;>
      exact h.reads_choice hk hp
  | whereCommand | rowCommand | evalCommand | limitCommand | explainCommand
  | subqueryExpression | string => exact h.reads hk hp
  | fromCommand n =>
    cases h with
    | token h => exact .token (h.reads_series (s := .sources) hk hp)
  | sortCommand n =>
    cases h with
    | token h => exact .token (h.reads_series (s := .orders) hk hp)
  | projectCommand n =>
    cases h with
    | token h => exact .token (h.reads_series (s := .clauses) hk hp)
  | fields n => exact h.reads_series (s := .fields) hk hp
  | qualifiedName n => exact h.reads_series (s := .parts) hk hp
  | qualifiedNames n => exact h.reads_series (s := .names) hk hp
  | statsCommand =>
    refine h.reads (p := go .grouping) hk (.go ?_)
    -- Nothing that follows the command opens a grouping.
    rw [Phase.script, if_neg (ne_of_mem hk)]
    exact hp
  | statsCommandBy => exact h.reads_grouped hk hp
  | orderExpression horder hnulls => exact h.reads_order horder hnulls hk hp
  | keep =>
    -- What follows a clause is no `=`, which would make it a renaming.
    simp only [opening, clauseForm?_keep h.derives (ne_of_mem hk)]
    exact h.reads hk hp
  | rename =>
    simp only [opening, clauseForm?_rename h.derives]
    exact h.reads hk hp
  | field =>
    simp only [opening, fieldForm?_expression h.derives hk]
    exact h.reads hk hp
  | assignment =>
    simp only [opening, fieldForm?_assignment h.derives]
    exact h.reads hk hp
  -- Operations are read by climbing, and are left to the other alternatives.
  | logicalNot | logicalBinary | arithmeticUnary | arithmeticBinary => cases ho
  | booleanDefault =>
    have hfirst := h.next_mem hk
    -- An operand of the logical operators does not begin with their sign.
    have hnot : next (v ++ rest) ≠ .notWord := ne_of_mem hfirst
    have hfirst : Rule.valueExpression.first.contains (next (v ++ rest)) = true := hfirst
    simp only [opening, unchecked, hnot, hfirst, if_false, if_true]
    exact .step (if_pos hb.floor_le) (.step rfl (h.reads hk hp))
  | valueExpressionDefault =>
    refine h.reads (p := go .comparison) hk (.go ?_)
    -- A value expression that is no comparison is not followed by a comparison operator either.
    have hnone : comparisonOperators.contains (next rest) = false := by
      revert hk
      generalize next rest = k
      revert k
      decide
    simp only [Phase.script, hnone, Bool.false_eq_true, if_false]
    exact .step rfl hp
  | comparison => exact h.reads_comparison hk hp
  | operatorExpressionDefault =>
    have hfirst := h.next_mem hk
    -- Neither does an operand of the arithmetic operators begin with one of theirs.
    have hplus : next (v ++ rest) ≠ .plus := ne_of_mem hfirst
    have hminus : next (v ++ rest) ≠ .minus := ne_of_mem hfirst
    have hfirst : Rule.primaryExpression.first.contains (next (v ++ rest)) = true := hfirst
    simp only [opening, uncheckedOperator, hplus, hminus, hfirst, decide_false, Bool.or_self,
      Bool.false_eq_true, if_false, if_true]
    exact .step (if_pos hb.floor_le) (.step rfl (h.reads hk hp))
  | constantDefault =>
    have hfirst : Rule.constant.first.contains (next (v ++ rest)) = true := h.next_mem hk
    simp only [opening, primaryForm?, hfirst, if_true]
    exact .step rfl (h.reads hk hp)
  | dereference =>
    simp only [opening, primaryForm?_name h.derives hk]
    exact .step rfl (h.reads hk hp)
  | parenthesizedExpression =>
    simp only [opening, primaryForm?_parenthesized h.derives]
    exact .step rfl (h.reads hk hp)
  | functionWithout =>
    refine h.reads_call fun b vs x hv hus => hv.reads_noArguments ?_
    rwa [← hus]
  | functionWith n =>
    refine Ready.reads_call h fun b vs x hv hus => hv.reads_arguments ?_
    rwa [← hus]
  | stringLiteral =>
    have hnext := Symbol.mem_first_token.mp (h.next_mem hk)
    simp only [opening, hnext]
    exact .step rfl (h.reads hk hp)
  | nullLiteral | decimalLiteral | integerLiteral =>
    obtain _ | h := h
    cases h
    exact .step rfl (.token hp)
  | numericLiteral =>
    rcases mem_number (h.next_mem hk) with hnext | hnext <;> simp only [opening, hnext] <;>
      exact .step rfl (h.reads hk hp)
  | booleanLiteral =>
    rcases mem_booleanValue (h.next_mem hk) with hnext | hnext <;> simp only [opening, hnext] <;>
      exact .step rfl (h.reads hk hp)
  | identifier hset | sourceIdentifier hset | comparisonOperator hset =>
    obtain _ | h := h
    cases h
    exact .take (KindSet.mem_toList.mp hset) hp
  | booleanValue hset =>
    obtain _ | h := h
    cases h
    refine .take ?_ hp
    simp only [List.mem_cons, List.not_mem_nil, or_false] at hset
    rcases hset with rfl | rfl <;> decide

/-- **The rule of a node comes to read on behind it.** -/
theorem Ready.resumes (ha : Alternative f l body) (h : Ready body us v) :
    Resumes l.rule f ⟨l, us⟩ v := by
  cases ha with
  | signed c hk =>
    rw [c.rule_signed]
    exact h.resumes_signed c hk
  | binary c hk hf =>
    rw [c.rule_wrapper]
    exact h.resumes_binary c hk hf
  | plain hl ho => exact h.resumes_plain hl ho

theorem Ready.of_stratified (h : Stratified gs ts w) : Ready gs ts w := by
  -- The induction is on the tree; it gives how the rest is read at every lower floor as well,
  -- since an operator may call its operand over any floor that the operand allows.
  induction h with
  | nil => exact .nil
  | token _ ih => exact .token ih
  | @rule f l body gs us ts v w ha hv _ ihv ihw =>
    refine .rule (n := ⟨l, us⟩) (Groups.of_alternative ha hv) (fun g hg => ?_) ihw
    exact ihv.resumes (ha.mono hg)

/-- **A stratified word is read**, before a token that closes it, and so is its tree. -/
theorem Groups.reads (h : Groups r f t v) (hk : Closes r f (next rest)) :
    ∃ n : Draft, n.shape = t ∧
      Reads (opening r f (v ++ rest)) (.fresh r) (v ++ rest) (.read n rest) := by
  cases Ready.of_stratified h with
  | rule hn hr hnil =>
    cases hnil
    rw [List.append_nil]
    exact ⟨_, rfl, (hr f (Nat.le_refl f)).reads hk⟩

/-- **A word has one stratified tree at most.** -/
theorem Groups.unique {t' : Shape} (h : Groups r f t v) (h' : Groups r f t' v)
    (hk : Closes r f .endOfInput) : t = t' := by
  have hk : Closes r f (next []) := hk
  obtain ⟨n, rfl, hn⟩ := Groups.reads h hk
  obtain ⟨n', rfl, hn'⟩ := Groups.reads h' hk
  rw [(Outcome.read.inj (hn.unique hn')).1]

end PipeQuery.Parser

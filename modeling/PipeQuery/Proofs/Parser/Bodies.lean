import PipeQuery.Proofs.Parser.Loops

/-!
# The parser carries out scripts

Every body of a rule does what its script says, in every state, and so does the parser of a rule,
with any depth.

## Main results

* `body_executes`: the bodies of the rules
* `parseRule_calls`: the parser of a rule
-/

namespace PipeQuery.Parser

open Token (Kind KindSet)

variable {strategy : Strategy} {limit d : Nat} {p : Script} {r : Rule} {f : Nat} {s s' : State}
  {k : Kind} {sub : Rule → Nat → Run Unit}

/-! ## Steps of a body -/

/-- Looking at the next token. -/
theorem ahead_bind (hs : s.stream.Proper) (y : Kind → Run Unit) :
    (ahead 1 >>= y) s = y (next s.coming) s := by
  rw [← kindAt_one hs]
  rfl

theorem bind_expect {y : Run Unit} (hk : k ≠ .endOfInput) (hs : s.stream.Proper)
    (h : ∀ s', s'.stream.Proper → Executes strategy limit d p s' (y s')) :
    Executes strategy limit d (.token k p) s ((expect strategy k >>= fun _ => y) s) := by
  have hplain : (Move.take (.ofList [k])).Plain := by
    simpa [Move.Plain] using hk.symm
  exact .bind_step hplain hs fun s' _ hs' => h s' hs'

theorem single_expect (hk : k ≠ .endOfInput) :
    Executes strategy limit d (.token k .done) s (expect strategy k s) := by
  have hplain : (Move.take (.ofList [k])).Plain := by
    simpa [Move.Plain] using hk.symm
  exact .single_step hplain

theorem bind_sub {y : Run Unit} (hsub : Carries strategy limit d sub) (hr : r ≠ .singleStatement)
    (hs : s.stream.Proper) (h : ∀ s', s'.stream.Proper → Executes strategy limit d p s' (y s')) :
    Executes strategy limit d (.call r f p) s ((sub r f >>= fun _ => y) s) :=
  .bind_call hr (hsub r f s hr hs) hs fun s' _ hs' => h s' hs'

theorem single_sub (hsub : Carries strategy limit d sub) (hr : r ≠ .singleStatement)
    (hs : s.stream.Proper) :
    Executes strategy limit d (.call r f .done) s (sub r f s) :=
  .single_call hr (hsub r f s hr hs) hs

/-- Labelling the node is a step. -/
theorem bind_relabel {label : Label} {y : Run Unit} (hs : s.stream.Proper)
    (h : ∀ s', s'.stream.Proper → s'.coming = s.coming → Executes strategy limit d p s' (y s')) :
    Executes strategy limit d (.label label p) s ((relabel label >>= fun _ => y) s) :=
  .step (m := .relabel label) trivial rfl (h (s.relabel label) hs rfl)

/-- Leaving a rule with an error is the last step. -/
theorem leave_executes {expected : KindSet} {y : Run Unit} (hs : s.stream.Proper) :
    Executes strategy limit d (.leave expected) s
      ((fail strategy .noViable expected >>= fun _ => y) s) :=
  .bind_step (m := .fail expected) trivial hs fun _ h _ => absurd h fail_ne_ok

theorem coming_of_check {highest : Nat}
    (h : (Move.check f highest).run strategy s = .ok () s') : s'.coming = s.coming := by
  rw [Move.run, checkFloor] at h
  split at h
  · cases h
    rfl
  · rw [State.coming, (reportHere_ok h).1, State.coming]

/-! ## Commands -/

/-- What a choice between rules does once the rule is known. -/
def choiceBody (strategy : Strategy) (sub : Rule → Nat → Run Unit) (expected : KindSet) :
    Option Rule → Run Unit
  | some r => sub r 0
  | none => fail strategy .noViable expected

theorem choice_executes (hsub : Carries strategy limit d sub) {first : Kind → Option Rule}
    {expected : KindSet} (hfirst : ∀ r, first (next s.coming) = some r → r ≠ .singleStatement)
    (hs : s.stream.Proper) :
    Executes strategy limit d (choice first expected s.coming) s
      (choiceBody strategy sub expected (first (next s.coming)) s) := by
  rw [choice]
  cases hr : first (next s.coming) with
  | some r => exact .single_call (hfirst r hr) (hsub r 0 s (hfirst r hr) hs) hs
  | none => exact .single_step (m := .fail expected) trivial

theorem sourceCommand_executes (hsub : Carries strategy limit d sub) (hs : s.stream.Proper) :
    Executes strategy limit d (opening .sourceCommand f s.coming) s
      (sourceCommand strategy sub s) := by
  have hbody : sourceCommand strategy sub s =
      choiceBody strategy sub Rule.sourceCommand.first (sourceCommandOf (next s.coming)) s := by
    rw [sourceCommand, ahead_bind hs]
    cases next s.coming <;> rfl
  rw [hbody]
  refine choice_executes hsub (fun r hr => ?_) hs
  rintro rfl
  unfold sourceCommandOf at hr
  split at hr <;> cases hr

theorem processingCommand_executes (hsub : Carries strategy limit d sub) (hs : s.stream.Proper) :
    Executes strategy limit d (opening .processingCommand f s.coming) s
      (processingCommand strategy sub s) := by
  have hbody : processingCommand strategy sub s =
      choiceBody strategy sub Rule.processingCommand.first
        (processingCommandOf (next s.coming)) s := by
    rw [processingCommand, ahead_bind hs]
    cases next s.coming <;> rfl
  rw [hbody]
  refine choice_executes hsub (fun r hr => ?_) hs
  rintro rfl
  unfold processingCommandOf at hr
  split at hr <;> cases hr

theorem commandWith_executes (hsub : Carries strategy limit d sub) (hk : k ≠ .endOfInput)
    (hr : r ≠ .singleStatement) (hs : s.stream.Proper) :
    Executes strategy limit d (.token k (.only r)) s (commandWith strategy sub k r s) :=
  bind_expect hk hs fun _ hs' => single_sub hsub hr hs'

theorem commandWithList_executes (hsub : Carries strategy limit d sub) (series : Series)
    (hcomma : series.separator = .comma) (hend : series.ending = .done) (hk : k ≠ .endOfInput)
    (hs : s.stream.Proper) :
    Executes strategy limit d (.token k (.call series.item 0 (.go (.more series)))) s
      (commandWithList strategy sub k series.item s) := by
  refine bind_expect hk hs fun s' hs' => ?_
  rw [← hcomma]
  exact single_list_executes hsub series hend hs'

theorem statsCommand_executes (hsub : Carries strategy limit d sub) (hs : s.stream.Proper) :
    Executes strategy limit d (opening .statsCommand f s.coming) s
      (statsCommand strategy sub s) := by
  refine bind_expect (by simp) hs fun t ht => ?_
  refine bind_sub hsub (by simp) ht fun u hu => .go ?_
  rw [ahead_bind hu, Phase.script]
  split
  · rename_i hk
    exact .bind_consume hu hk (by simp) fun v hv _ => single_sub hsub (by simp) hv
  · exact .done

theorem limitCommand_executes (hs : s.stream.Proper) :
    Executes strategy limit d (opening .limitCommand f s.coming) s (limitCommand strategy s) :=
  bind_expect (by simp) hs fun _ _ => single_expect (by simp)

theorem nulls_executes (hs : s.stream.Proper) :
    Executes strategy limit d (.go .nulls) s
      ((ahead 1 >>= fun k => if k = .nullsWord then do
          consume
          expectOneOf strategy (.ofList [.firstWord, .lastWord])
        else pure () : Run Unit) s) := by
  refine .go ?_
  rw [ahead_bind hs, Phase.script]
  split
  · rename_i hk
    exact .bind_consume hs hk (by simp) fun t _ _ =>
      .single_step (m := .take (.ofList [.firstWord, .lastWord])) (by decide)
  · exact .done

theorem orderExpression_executes (hsub : Carries strategy limit d sub) (hs : s.stream.Proper) :
    Executes strategy limit d (opening .orderExpression f s.coming) s
      (orderExpression strategy sub s) := by
  refine bind_sub hsub (by simp) hs fun t ht => .go ?_
  rw [ahead_bind ht, Phase.script]
  simp only [Bool.or_eq_true, decide_eq_true_eq]
  split
  · rename_i hk
    refine .bind_consume ht rfl ?_ fun u hu _ => nulls_executes hu
    rcases hk with hk | hk <;> simp [hk]
  · exact nulls_executes ht

/-- What a project clause does once its form is known. -/
def clauseBody (strategy : Strategy) (sub : Rule → Nat → Run Unit) : Option ClauseForm → Run Unit
  | some .keep => sub .sourceIdentifier 0
  | some .rename => do
    sub .sourceIdentifier 0
    expect strategy .assign
    sub .sourceIdentifier 0
  | none => fail strategy .noViable Rule.projectClause.first

theorem projectClause_executes (hsub : Carries strategy limit d sub) (hs : s.stream.Proper) :
    Executes strategy limit d (opening .projectClause f s.coming) s
      (projectClause strategy sub s) := by
  have hbody : projectClause strategy sub s = clauseBody strategy sub (clauseForm? s.coming) s := by
    rw [State.coming, ← clause?_eq hs]
    rfl
  rw [hbody, opening]
  cases clauseForm? s.coming with
  | none => exact .single_step (m := .fail Rule.projectClause.first) trivial
  | some form =>
    cases form with
    | keep => exact single_sub hsub (by simp) hs
    | rename =>
      exact bind_sub hsub (by simp) hs fun t ht =>
        bind_expect (by simp) ht fun u hu => single_sub hsub (by simp) hu

/-- What a field does once its form is known. -/
def fieldBody (strategy : Strategy) (sub : Rule → Nat → Run Unit) : Option FieldForm → Run Unit
  | some .expression => sub .booleanExpression 0
  | some .assignment => do
    sub .qualifiedName 0
    expect strategy .assign
    sub .booleanExpression 0
  | none => fail strategy .noViable Rule.field.first

theorem field_executes (hsub : Carries strategy limit d sub) (hs : s.stream.Proper) :
    Executes strategy limit d (opening .field f s.coming) s (field strategy sub s) := by
  have hbody : field strategy sub s = fieldBody strategy sub (fieldForm? s.coming) s := by
    rw [State.coming, ← field?_eq hs]
    rfl
  rw [hbody, opening]
  cases fieldForm? s.coming with
  | none => exact .single_step (m := .fail Rule.field.first) trivial
  | some form =>
    cases form with
    | expression => exact single_sub hsub (by simp) hs
    | assignment =>
      exact bind_sub hsub (by simp) hs fun t ht =>
        bind_expect (by simp) ht fun u hu => single_sub hsub (by simp) hu

theorem query_executes (hsub : Carries strategy limit d sub) (hs : s.stream.Proper) :
    Executes strategy limit d (opening .query f s.coming) s (query strategy sub f s) :=
  bind_relabel hs fun _ ht _ => bind_sub hsub (by simp) ht fun u hu =>
    stages_executes hsub u.stream.remaining hu (Nat.le_of_eq hu.remaining_eq.symm)

theorem subqueryExpression_executes (hsub : Carries strategy limit d sub) (hs : s.stream.Proper) :
    Executes strategy limit d (opening .subqueryExpression f s.coming) s
      (subqueryExpression strategy sub s) :=
  bind_expect (by simp) hs fun _ ht => bind_sub hsub (by simp) ht fun _ _ =>
    single_expect (by simp)

/-! ## Expressions -/

theorem booleanExpression_executes (hsub : Carries strategy limit d sub) (hs : s.stream.Proper) :
    Executes strategy limit d (opening .booleanExpression f s.coming) s
      (booleanExpression strategy sub f s) := by
  have hrest (s : State) (hs : s.stream.Proper) :
      Executes strategy limit d (.go (.operators .logical f)) s
        ((remaining >>= fun n => operators sub Kind.logicalPrecedence .logicalBinary
          .booleanExpression f n : Run Unit) s) :=
    operators_executes hsub .logical s.stream.remaining hs (Nat.le_of_eq hs.remaining_eq.symm)
  refine .bind_step (m := .check f Precedence.booleanMax) trivial hs fun t h ht => ?_
  rw [← coming_of_check h, ahead_bind ht, unchecked]
  by_cases hnot : next t.coming = .notWord
  · simp only [if_pos hnot]
    refine bind_relabel ht fun u hu hw => ?_
    rw [← hw] at hnot
    exact .bind_consume hu hnot (by simp) fun v hv _ => bind_sub hsub (by simp) hv hrest
  · simp only [if_neg hnot]
    split
    · exact bind_relabel ht fun u hu _ => bind_sub hsub (by simp) hu hrest
    · exact leave_executes ht

theorem valueExpression_executes (hsub : Carries strategy limit d sub) (hs : s.stream.Proper) :
    Executes strategy limit d (opening .valueExpression f s.coming) s
      (valueExpression sub s) := by
  refine bind_sub hsub (by simp) hs fun t ht => .go ?_
  rw [ahead_bind ht, Phase.script]
  split
  · exact bind_relabel ht fun u hu _ => bind_sub hsub (by simp) hu fun v hv =>
      single_sub hsub (by simp) hv
  · exact .single_step (m := .relabel .valueExpressionDefault) trivial

theorem operatorExpression_executes (hsub : Carries strategy limit d sub) (hs : s.stream.Proper) :
    Executes strategy limit d (opening .operatorExpression f s.coming) s
      (operatorExpression strategy sub f s) := by
  have hrest (s : State) (hs : s.stream.Proper) :
      Executes strategy limit d (.go (.operators .arithmetic f)) s
        ((remaining >>= fun n => operators sub Kind.arithmeticPrecedence .arithmeticBinary
          .operatorExpression f n : Run Unit) s) :=
    operators_executes hsub .arithmetic s.stream.remaining hs (Nat.le_of_eq hs.remaining_eq.symm)
  refine .bind_step (m := .check f Precedence.operatorMax) trivial hs fun t h ht => ?_
  rw [← coming_of_check h, ahead_bind ht, uncheckedOperator]
  by_cases hsign : (next t.coming = .plus || next t.coming = .minus : Bool) = true
  · simp only [if_pos hsign]
    refine bind_relabel ht fun u hu hw => .bind_consume hu (by rw [hw]) ?_
      fun v hv _ => bind_sub hsub (by simp) hv hrest
    intro heof
    rw [heof] at hsign
    cases hsign
  · simp only [if_neg hsign]
    split
    · exact bind_relabel ht fun u hu _ => bind_sub hsub (by simp) hu hrest
    · exact leave_executes ht

theorem arguments_executes (hsub : Carries strategy limit d sub) (hs : s.stream.Proper) :
    Executes strategy limit d (.go .arguments) s (arguments strategy sub s) := by
  refine .go ?_
  rw [arguments, ahead_bind hs, Phase.script]
  split
  · exact list_executes hsub .arguments (fun _ _ => single_expect (by simp)) hs
  · exact single_expect (by simp)

theorem next_of_parenthesized {w : List Kind} (h : primaryForm? w = some .parenthesized) :
    next w = .leftParen := by
  rw [primaryForm?] at h
  split at h
  · cases h
  · split at h
    · assumption
    · split at h
      · split at h <;> cases h
      · cases h

/-- What a primary expression does once its form is known. -/
def primaryBody (strategy : Strategy) (sub : Rule → Nat → Run Unit) : Option PrimaryForm → Run Unit
  | some .constant => do
    relabel .constantDefault
    sub .constant 0
  | some .name => do
    relabel .dereference
    sub .qualifiedName 0
  | some .parenthesized => do
    relabel .parenthesizedExpression
    consume
    sub .booleanExpression 0
    expect strategy .rightParen
  | some .call => do
    relabel .functionExpression
    sub .identifier 0
    expect strategy .leftParen
    arguments strategy sub
  | none => fail strategy .noViable Rule.primaryExpression.first

theorem primaryExpression_executes (hsub : Carries strategy limit d sub) (hs : s.stream.Proper) :
    Executes strategy limit d (opening .primaryExpression f s.coming) s
      (primaryExpression strategy sub s) := by
  have hbody : primaryExpression strategy sub s =
      primaryBody strategy sub (primaryForm? s.coming) s := by
    rw [State.coming, ← primary?_eq hs]
    rfl
  rw [hbody, opening]
  cases hform : primaryForm? s.coming with
  | none => exact .single_step (m := .fail Rule.primaryExpression.first) trivial
  | some form =>
    cases form with
    | constant => exact bind_relabel hs fun t ht _ => single_sub hsub (by simp) ht
    | name => exact bind_relabel hs fun t ht _ => single_sub hsub (by simp) ht
    | parenthesized =>
      refine bind_relabel hs fun t ht hw => ?_
      have hparen : next t.coming = .leftParen := by
        rw [hw]
        exact next_of_parenthesized hform
      exact .bind_consume ht hparen (by simp) fun u hu _ =>
        bind_sub hsub (by simp) hu fun v hv => single_expect (by simp)
    | call =>
      exact bind_relabel hs fun t ht _ => bind_sub hsub (by simp) ht fun u hu =>
        bind_expect (by simp) hu fun v hv => arguments_executes hsub hv

theorem constant_executes (hsub : Carries strategy limit d sub) (hs : s.stream.Proper) :
    Executes strategy limit d (opening .constant f s.coming) s (constant strategy sub s) := by
  have hcall (label : Label) (r : Rule) (hr : r ≠ .singleStatement) :
      Executes strategy limit d (.label label (.only r)) s
        ((relabel label >>= fun _ => sub r 0) s) :=
    bind_relabel hs fun t ht _ => single_sub hsub hr ht
  rw [constant, ahead_bind hs, opening]
  generalize hk : next s.coming = k
  cases k with
  | nullWord =>
    refine bind_relabel hs fun t ht hw => ?_
    rw [← hw] at hk
    exact .single_consume ht hk (by simp)
  | integer | decimal => exact hcall .numericLiteral .number (by simp)
  | trueWord | falseWord => exact hcall .booleanLiteral .booleanValue (by simp)
  | string => exact hcall .stringLiteral .string (by simp)
  | _ => exact .single_step (m := .fail Rule.constant.first) trivial

theorem number_executes (hs : s.stream.Proper) :
    Executes strategy limit d (opening .number f s.coming) s (number strategy s) := by
  have htoken (label : Label) (hne : next s.coming ≠ .endOfInput) :
      Executes strategy limit d (.label label (.token (next s.coming) .done)) s
        ((relabel label >>= fun _ => consume) s) := by
    refine bind_relabel hs fun t ht hw => ?_
    rw [← hw] at hne ⊢
    exact .single_consume ht rfl hne
  rw [number, ahead_bind hs, opening]
  generalize hk : next s.coming = k at htoken ⊢
  cases k with
  | decimal => exact htoken .decimalLiteral (by simp)
  | integer => exact htoken .integerLiteral (by simp)
  | _ => exact .single_step (m := .fail Rule.number.first) trivial

/-! ## Every rule -/

/-- **The body of a rule carries out the script of the rule**, if the parser of the rules that it
calls does. -/
theorem body_executes (hsub : Carries strategy limit d sub) (hr : r ≠ .singleStatement)
    (hs : s.stream.Proper) :
    Executes strategy limit d (opening r f s.coming) s (body strategy sub r f s) := by
  cases r with
  | singleStatement => exact absurd rfl hr
  | query => exact query_executes hsub hs
  | sourceCommand => exact sourceCommand_executes hsub hs
  | processingCommand => exact processingCommand_executes hsub hs
  | whereCommand | rowCommand | evalCommand | explainCommand =>
    exact commandWith_executes hsub (by simp) (by simp) hs
  | booleanExpression => exact booleanExpression_executes hsub hs
  | valueExpression => exact valueExpression_executes hsub hs
  | operatorExpression => exact operatorExpression_executes hsub hs
  | primaryExpression => exact primaryExpression_executes hsub hs
  | fields => exact single_list_executes hsub .fields rfl hs
  | field => exact field_executes hsub hs
  | fromCommand => exact commandWithList_executes hsub .sources rfl rfl (by simp) hs
  | statsCommand => exact statsCommand_executes hsub hs
  | sourceIdentifier | identifier | booleanValue | comparisonOperator =>
    exact .single_step (m := .take _) (by decide)
  | qualifiedName => exact single_list_executes hsub .parts rfl hs
  | qualifiedNames => exact single_list_executes hsub .names rfl hs
  | constant => exact constant_executes hsub hs
  | limitCommand => exact limitCommand_executes hs
  | sortCommand => exact commandWithList_executes hsub .orders rfl rfl (by simp) hs
  | orderExpression => exact orderExpression_executes hsub hs
  | projectCommand => exact commandWithList_executes hsub .clauses rfl rfl (by simp) hs
  | projectClause => exact projectClause_executes hsub hs
  | number => exact number_executes hs
  | string => exact single_expect (by simp)
  | subqueryExpression => exact subqueryExpression_executes hsub hs

/-- **The parser of a rule carries out the script of the rule.** -/
theorem parseRule_calls (options : Options) (hr : r ≠ .singleStatement) (hs : s.stream.Proper) :
    Calls options.strategy options.maxDepth d r f s (parseRule options d r f s) := by
  induction d generalizing r f s with
  | zero => rw [parseRule, within_eq, Calls]
  | succ d ih =>
    rw [parseRule, within_eq]
    refine ⟨_, ?_, rfl⟩
    exact body_executes (fun r f s hr hs => ih hr hs) hr (s := s.enter (.ofRule r) f) hs

end PipeQuery.Parser

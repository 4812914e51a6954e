import PipeQuery.Proofs.Parser.Reading

/-!
# Readings follow the grammar

What has been read of a node is the beginning of an alternative, and the script that is left leads
to its end. So a node that is read to the end is a node of the stratified grammar, and what is read
before an error can still be continued to a word of the grammar.

## Main definitions

* `Stops`: the tokens that end an expression over a floor
* `Entered`, `Fits`: what has been read of a node where a phase, or the rest of a script, begins

## Main results

* `opening_fits`, `Phase.script_fits`: scripts fit where they begin
* `Fits.completable`: what has been read of a node can be completed
* `Reads.sound`: nodes read to the end are stratified, and errors come behind words that can be
  continued
-/

namespace PipeQuery.Parser

open Token (Kind KindSet)

/-- The tokens to come do not start with an operator that an expression over this floor takes. -/
def Stops (r : Rule) (floor : Nat) (w : List Kind) : Prop :=
  ∀ c p, Climb.rule c = r → c.precedence (next w) = some p → p < floor

theorem stops_nil (r : Rule) (floor : Nat) : Stops r floor [] := by
  rintro (_ | _) p - h <;> cases h

/-- Nothing needs to be looked at behind a rule without operators. -/
theorem stops_of_forall_ne {r : Rule} (floor : Nat) (w : List Kind)
    (h : ∀ c, Climb.rule c ≠ r := by decide) : Stops r floor w :=
  fun c _ hc _ => absurd hc (h c)

namespace Series

/-- The label of the node that holds a list. -/
def label : Series → Label
  | sources => .fromCommand
  | orders => .sortCommand
  | clauses => .projectCommand
  | fields => .fields
  | names => .qualifiedNames
  | parts => .qualifiedName
  | arguments => .functionExpression

/-- What stands before the list at its node. -/
def head : Series → List Symbol
  | sources => [.token .fromCmd]
  | orders => [.token .sortCmd]
  | clauses => [.token .projectCmd]
  | arguments => [.rule .identifier, .token .leftParen]
  | _ => []

/-- What stands behind the list at its node. -/
def tail : Series → List Symbol
  | arguments => [.token .rightParen]
  | _ => []

/-- A list of `n + 1` items, and what stands before it. -/
def symbols (s : Series) (n : Nat) : List Symbol :=
  s.head ++ separated (.rule s.item) s.separator n

theorem production (s : Series) (n : Nat) : Production s.label (s.symbols n ++ s.tail) := by
  cases s with
  | sources => simpa [symbols, head, tail, label, item, separator] using Production.fromCommand n
  | orders => simpa [symbols, head, tail, label, item, separator] using Production.sortCommand n
  | clauses => simpa [symbols, head, tail, label, item, separator] using Production.projectCommand n
  | fields => simpa [symbols, head, tail, label, item, separator] using Production.fields n
  | names => simpa [symbols, head, tail, label, item, separator] using Production.qualifiedNames n
  | parts => simpa [symbols, head, tail, label, item, separator] using Production.qualifiedName n
  | arguments => simpa [symbols, head, tail, label, item, separator] using Production.functionWith n

end Series

theorem Series.symbols_succ (s : Series) (n : Nat) :
    s.symbols (n + 1) = s.symbols n ++ [.token s.separator, .rule s.item] := by
  rw [symbols, separated_succ, ← List.append_assoc]
  rfl

/-- What has been read of a node of a rule where a phase begins, before the tokens to come. -/
def Entered (r : Rule) (f : Nat) (l : Label) (gs : List Goal) (w : List Kind) : Phase → Prop
  | .more s => l = s.label ∧ s.label.rule = r ∧ ∃ n, gs = ground (s.symbols n)
  | .operators c floor => floor = f ∧ c.rule = r ∧ l.rule = r ∧ Alternative f l gs ∧
      -- The next operator takes the node as its left operand.
      ∀ p, c.precedence (next w) = some p → Alternative p l gs
  | .stages _ => r = .query ∧ l.rule = r ∧ Alternative f l gs
  | .comparison => r = .valueExpression ∧ gs = ground [.rule .operatorExpression]
  | .grouping => r = .statsCommand ∧ l = .statsCommand ∧
      gs = ground [.token .statsCmd, .rule .fields]
  | .direction => r = .orderExpression ∧ l = .orderExpression ∧
      gs = ground [.rule .booleanExpression]
  | .nulls => r = .orderExpression ∧ l = .orderExpression ∧
      ∃ order ∈ [[], [.token .ascWord], [.token .descWord]],
        gs = ground (.rule .booleanExpression :: order)
  | .arguments => r = .primaryExpression ∧ l = .functionExpression ∧
      gs = ground [.rule .identifier, .token .leftParen]

/-- What has been read of a node of a rule where the rest of a script begins, before the tokens to
come: the script leads from there to the end of an alternative. -/
def Fits (r : Rule) (f : Nat) : Script → Label → List Goal → List Kind → Prop
  | .done, l, gs, w => Alternative f l gs ∧ l.rule = r ∧ Stops r f w
  | .step (.relabel l) p, _, gs, w => Fits r f p l gs w
  | .step (.wrap l') p, l, gs, w =>
    ∃ g, Alternative g l gs ∧ Fits r f p l' [⟨.rule l.rule, g⟩] w
  | .step (.take set) p, l, gs, _ =>
    (∃ k, set.contains k = true) ∧
      ∀ k w, set.contains k = true → Fits r f p l (gs ++ [⟨.token k, 0⟩]) w
  | .step (.check _ _) p, l, gs, w => Fits r f p l gs w
  | .step (.fail _) _, _, gs, _ => gs = []
  | .step .sync _, l, gs, _ => Alternative f l gs ∧ l.rule = r
  | .call r' f' p, l, gs, _ =>
    r' ≠ .singleStatement ∧ ∀ w, Stops r' f' w → Fits r f p l (gs ++ [⟨.rule r', f'⟩]) w
  | .go q, l, gs, w => Entered r f l gs w q

variable {r : Rule} {f : Nat} {l : Label} {gs : List Goal} {w : List Kind} {p : Script}

theorem Fits.token {k : Kind} (h : ∀ w, Fits r f p l (gs ++ [⟨.token k, 0⟩]) w) :
    Fits r f (.token k p) l gs w := by
  refine ⟨⟨k, by simp⟩, fun k' w' hk => ?_⟩
  obtain rfl : k' = k := by simpa using hk
  exact h w'

theorem Fits.call {r' : Rule} {f' : Nat}
    (h : ∀ w, Stops r' f' w → Fits r f p l (gs ++ [⟨.rule r', f'⟩]) w)
    (hr : r' ≠ .singleStatement := by simp) : Fits r f (.call r' f' p) l gs w :=
  ⟨hr, h⟩

theorem Fits.only {r' : Rule} (h : Alternative f l (gs ++ [⟨.rule r', 0⟩]))
    (hl : l.rule = r := by rfl) (hstop : ∀ c, Climb.rule c ≠ r := by decide)
    (hr : r' ≠ .singleStatement := by simp) : Fits r f (.only r') l gs w :=
  .call (fun w _ => ⟨h, hl, stops_of_forall_ne f w hstop⟩) hr

/-! ## Scripts fit where they begin -/

theorem Series.ending_fits (s : Series) (h : s.label.rule = r) {n : Nat}
    (hs : ∀ c, Climb.rule c ≠ r) : Fits r f s.ending s.label (ground (s.symbols n)) w := by
  have hdone (l : s.label.isOperation = false) :
      Alternative f s.label (ground (s.symbols n ++ s.tail)) := .of_production (s.production n) l
  cases s with
  | arguments =>
    refine Fits.token fun w => ⟨?_, h, stops_of_forall_ne f w hs⟩
    simpa [Series.tail] using hdone rfl
  | _ => exact ⟨by simpa [Series.tail] using hdone rfl, h, stops_of_forall_ne f w hs⟩

theorem Series.rule_label_ne (s : Series) (c : Climb) : c.rule ≠ s.label.rule := by
  cases s <;> cases c <;> decide

/-- An operator binds its left operand before the operators behind it that bind no tighter. -/
theorem binary_forall_alternative {c : Climb} {k : Kind} {q : Nat}
    (hk : c.precedence k = some q) (hw : Stops c.rule (q + 1) w) :
    ∀ p, c.precedence (next w) = some p → Alternative p c.wrapper
      [⟨.rule c.rule, q⟩, ⟨.token k, 0⟩, ⟨.rule c.rule, q + 1⟩] :=
  fun p hp => .binary c hk (Nat.le_of_lt_succ (hw c p rfl hp))

/-- **The script of a phase fits where the phase begins.** -/
theorem Phase.script_fits {q : Phase} (h : Entered r f l gs w q) :
    Fits r f (q.script w) l gs w := by
  cases q with
  | more s =>
    obtain ⟨rfl, rfl, n, rfl⟩ := h
    rw [script]
    split
    · refine Fits.token fun w => ⟨s.item_ne, fun w _ => ⟨rfl, rfl, n + 1, ?_⟩⟩
      rw [s.symbols_succ, ground_append, List.append_assoc]
      rfl
    · exact s.ending_fits rfl s.rule_label_ne
  | operators c floor =>
    obtain ⟨rfl, rfl, hl, ha, hp⟩ := h
    simp only [script]
    split
    · rename_i hnone
      -- No operator comes next: the node is done, and it stops here over every floor.
      refine ⟨ha, hl, fun d p hd hdp => ?_⟩
      obtain rfl := Climb.rule_injective hd
      rw [hnone] at hdp
      cases hdp
    · rename_i p hsome
      split
      · rename_i hlt
        -- The operator to come is left to a node further out.
        refine ⟨ha, hl, fun d q hd hdq => ?_⟩
        obtain rfl := Climb.rule_injective hd
        obtain rfl := Option.some.inj (hsome.symm.trans hdq)
        exact hlt
      · rename_i hle
        -- The node becomes the left operand. The right one is over the next floor and stops before
        -- operators that bind as tight, so the new node can be a left operand in turn.
        refine ⟨p, hp p hsome, Fits.token fun w' => ⟨?_, fun w' hw' => ?_⟩⟩
        · cases c <;> decide
        · rw [hl]
          exact ⟨rfl, rfl, c.rule_wrapper, .binary c hsome (Nat.le_of_not_lt hle),
            binary_forall_alternative hsome hw'⟩
  | stages floor =>
    obtain ⟨rfl, hl, ha⟩ := h
    simp only [script]
    split
    · -- The query so far becomes the first part of the query with one more stage.
      refine ⟨0, ha.mono (Nat.zero_le f), Fits.token fun w => ⟨by decide, fun w _ => ?_⟩⟩
      rw [hl]
      exact ⟨rfl, rfl, .of_production .compositeQuery⟩
    · split
      · exact ⟨ha, hl, stops_of_forall_ne f w⟩
      · exact ⟨ha, hl⟩
  | comparison =>
    obtain ⟨rfl, rfl⟩ := h
    rw [script]
    split
    · exact Fits.call (w := w) fun w _ => Fits.only (.of_production .comparison)
    · exact ⟨.of_production .valueExpressionDefault, rfl, stops_of_forall_ne f w⟩
  | grouping =>
    obtain ⟨rfl, rfl, rfl⟩ := h
    rw [script]
    split
    · exact Fits.token fun w => Fits.only (.of_production .statsCommandBy)
    · exact ⟨.of_production .statsCommand, rfl, stops_of_forall_ne f w⟩
  | direction =>
    obtain ⟨rfl, rfl, rfl⟩ := h
    simp only [script]
    split
    · rename_i hk
      refine Fits.token fun w => ⟨rfl, rfl, [.token (next _)], ?_, rfl⟩
      simp only [Bool.or_eq_true, decide_eq_true_eq] at hk
      rcases hk with hk | hk <;> rw [hk] <;> decide
    · exact ⟨rfl, rfl, [], by decide, rfl⟩
  | nulls =>
    obtain ⟨rfl, rfl, order, horder, rfl⟩ := h
    have hdone (nulls) (hnulls : nulls ∈ [[], [.token .nullsWord, .token .firstWord],
        [.token .nullsWord, .token .lastWord]]) (w) :
        Fits .orderExpression f .done .orderExpression
          (ground (.rule .booleanExpression :: order ++ nulls)) w :=
      ⟨.of_production (.orderExpression horder hnulls), rfl, stops_of_forall_ne f w⟩
    rw [script]
    split
    · refine Fits.token fun w => ⟨⟨.firstWord, by decide⟩, fun k w hk => ?_⟩
      have hk : k = .firstWord ∨ k = .lastWord := by simpa using hk
      rcases hk with rfl | rfl
      · simpa using hdone [.token .nullsWord, .token .firstWord] (by decide) w
      · simpa using hdone [.token .nullsWord, .token .lastWord] (by decide) w
    · simpa using hdone [] (by decide) w
  | arguments =>
    obtain ⟨rfl, rfl, rfl⟩ := h
    rw [script]
    split
    · exact ⟨by decide, fun w _ => ⟨rfl, rfl, 0, rfl⟩⟩
    · exact Fits.token fun w => ⟨.of_production .functionWithout, rfl,
        stops_of_forall_ne f w⟩

/-- What can be continued at a rule without operators needs no look at the tokens behind it. -/
theorem Fits.done {ss : List Symbol} (h : Production l ss)
    (hr : ∀ c, Climb.rule c ≠ l.rule := by decide) (hl : l.isOperation = false := by rfl) :
    Fits l.rule f .done l (ground ss) w :=
  ⟨.of_production h hl, rfl, stops_of_forall_ne f w hr⟩

/-- The script of a rule whose next token announces one of several rules. -/
theorem choice_fits {first : Kind → Option Rule} {expected : KindSet} {w : List Kind}
    (h : ∀ k r, first k = some r → r ≠ .singleStatement ∧ Production l [.rule r])
    (hr : ∀ c, Climb.rule c ≠ l.rule := by decide) (hl : l.isOperation = false := by rfl) :
    Fits l.rule f (choice first expected w) l [] w := by
  rw [choice]
  split
  · rename_i r hfirst
    exact Fits.only (.of_production (h _ r hfirst).2 hl) rfl hr (h _ r hfirst).1
  · rfl

/-- **The script of a rule fits where the rule begins.** -/
theorem opening_fits (hr : r ≠ .singleStatement) : Fits r f (opening r f w) (.ofRule r) [] w := by
  -- One case per rule. A script that reads a production from left to right fits by the production;
  -- one that branches on the tokens to come fits by each of its branches.
  cases r with
  | singleStatement => exact absurd rfl hr
  | query => exact Fits.call (w := w) fun w _ => ⟨rfl, rfl, .of_production .singleCommandQuery⟩
  | sourceCommand =>
    refine choice_fits (l := .sourceCommand) fun k r h => ?_
    cases k <;> cases h <;> exact ⟨by decide, .sourceCommand (by decide)⟩
  | processingCommand =>
    refine choice_fits (l := .processingCommand) fun k r h => ?_
    cases k <;> cases h <;> exact ⟨by decide, .processingCommand (by decide)⟩
  | booleanExpression =>
    rw [opening_boolean, unchecked]
    show Fits _ f _ _ [] w
    split
    · exact Fits.token (w := w) fun w => Fits.call fun w _ => ⟨rfl, rfl, rfl,
        .signed .logical (by decide), fun p _ => .signed .logical (by decide)⟩
    · split
      · exact Fits.call (w := w) fun w _ => ⟨rfl, rfl, rfl, .of_production .booleanDefault,
          fun p _ => .of_production .booleanDefault⟩
      · rfl
  | operatorExpression =>
    rw [opening_operator, uncheckedOperator]
    show Fits _ f _ _ [] w
    split
    · rename_i hk
      have hk : next w ∈ Climb.arithmetic.signs := by
        simpa [Climb.signs] using hk
      exact Fits.token (w := w) fun w => Fits.call fun w _ => ⟨rfl, rfl, rfl,
        .signed .arithmetic hk, fun p _ => .signed .arithmetic hk⟩
    · split
      · exact Fits.call (w := w) fun w _ => ⟨rfl, rfl, rfl,
          .of_production .operatorExpressionDefault,
          fun p _ => .of_production .operatorExpressionDefault⟩
      · rfl
  | whereCommand => exact Fits.token fun w => Fits.only (.of_production .whereCommand)
  | valueExpression => exact Fits.call fun w _ => ⟨rfl, rfl⟩
  | primaryExpression =>
    simp only [opening]
    split
    · exact Fits.only (w := w) (.of_production .constantDefault)
    · exact Fits.only (w := w) (.of_production .dereference)
    · exact Fits.token (w := w) fun w => Fits.call fun w _ => Fits.token fun w =>
        Fits.done .parenthesizedExpression
    · exact Fits.call (w := w) fun w _ => Fits.token fun w => ⟨rfl, rfl, rfl⟩
    · rfl
  | rowCommand => exact Fits.token fun w => Fits.only (.of_production .rowCommand)
  | fields => exact Fits.call fun w _ => ⟨rfl, rfl, 0, rfl⟩
  | field =>
    simp only [opening]
    split
    · exact Fits.only (.of_production .field)
    · exact Fits.call fun w _ => Fits.token fun w => Fits.only (.of_production .assignment)
    · rfl
  | fromCommand => exact Fits.token fun w => Fits.call fun w _ => ⟨rfl, rfl, 0, rfl⟩
  | evalCommand => exact Fits.token fun w => Fits.only (.of_production .evalCommand)
  | statsCommand => exact Fits.token fun w => Fits.call fun w _ => ⟨rfl, rfl, rfl⟩
  | sourceIdentifier =>
    refine ⟨⟨.sourceName, by decide⟩, fun k w hk => ?_⟩
    exact Fits.done (.sourceIdentifier (KindSet.mem_toList.mpr hk))
  | qualifiedName => exact Fits.call fun w _ => ⟨rfl, rfl, 0, rfl⟩
  | qualifiedNames => exact Fits.call fun w _ => ⟨rfl, rfl, 0, rfl⟩
  | identifier =>
    refine ⟨⟨.name, by decide⟩, fun k w hk => ?_⟩
    exact Fits.done (.identifier (KindSet.mem_toList.mpr hk))
  | constant =>
    simp only [opening]
    split
    · exact Fits.token (w := w) fun w => Fits.done .nullLiteral
    · exact Fits.only (w := w) (.of_production .numericLiteral)
    · exact Fits.only (w := w) (.of_production .numericLiteral)
    · exact Fits.only (w := w) (.of_production .booleanLiteral)
    · exact Fits.only (w := w) (.of_production .booleanLiteral)
    · exact Fits.only (w := w) (.of_production .stringLiteral)
    · rfl
  | limitCommand => exact Fits.token fun w => Fits.token fun w => Fits.done .limitCommand
  | sortCommand => exact Fits.token fun w => Fits.call fun w _ => ⟨rfl, rfl, 0, rfl⟩
  | orderExpression => exact Fits.call fun w _ => ⟨rfl, rfl, rfl⟩
  | projectCommand => exact Fits.token fun w => Fits.call fun w _ => ⟨rfl, rfl, 0, rfl⟩
  | projectClause =>
    simp only [opening]
    split
    · exact Fits.only (.of_production .keep)
    · exact Fits.call fun w _ => Fits.token fun w => Fits.only (.of_production .rename)
    · rfl
  | booleanValue =>
    refine ⟨⟨.trueWord, by decide⟩, fun k w hk => ?_⟩
    have hk : k ∈ [Kind.trueWord, .falseWord] := by
      revert hk
      revert k
      decide
    exact Fits.done (.booleanValue hk)
  | number =>
    simp only [opening]
    split
    · exact Fits.token (w := w) fun w => Fits.done .decimalLiteral
    · exact Fits.token (w := w) fun w => Fits.done .integerLiteral
    · rfl
  | string => exact Fits.token fun w => Fits.done .string
  | comparisonOperator =>
    refine ⟨⟨.equal, by decide⟩, fun k w hk => ?_⟩
    exact Fits.done (.comparisonOperator (KindSet.mem_toList.mpr hk))
  | explainCommand => exact Fits.token fun w => Fits.only (.of_production .explainCommand)
  | subqueryExpression =>
    exact Fits.token fun w => Fits.call fun w _ => Fits.token fun w =>
      Fits.done .subqueryExpression

/-! ## What has been read can be completed -/

/-- What has been read of a node can be continued to its end. -/
def Completable (r : Rule) (gs : List Goal) : Prop :=
  ∃ x, ∀ u, Derives (gs.map Goal.symbol) u → Derives [.rule r] (u ++ x)

theorem Completable.of_alternative (h : Alternative f l gs) (hl : l.rule = r) :
    Completable r gs :=
  ⟨[], fun u hu => by rw [List.append_nil, ← hl]; exact .of_production h.production hu⟩

theorem Completable.of_append {hs : List Goal} {v : List Kind} (h : Completable r (gs ++ hs))
    (hv : Derives (hs.map Goal.symbol) v) : Completable r gs := by
  obtain ⟨x, hx⟩ := h
  refine ⟨v ++ x, fun u hu => ?_⟩
  rw [← List.append_assoc]
  refine hx _ ?_
  rw [List.map_append]
  exact hu.append hv

/-- Where nothing has been read, every word of the rule is a continuation. -/
theorem Completable.nil (r : Rule) : Completable r [] := by
  obtain ⟨x, hx⟩ := r.exists_derives
  refine ⟨x, fun u hu => ?_⟩
  cases hu
  exact hx

theorem Entered.completable {q : Phase} (h : Entered r f l gs w q) : Completable r gs := by
  cases q with
  | more s =>
    obtain ⟨rfl, rfl, n, rfl⟩ := h
    have hall : Completable s.label.rule (ground (s.symbols n ++ s.tail)) :=
      .of_alternative (f := 0) (.of_production (s.production n) (by cases s <;> rfl)) rfl
    rw [ground_append] at hall
    cases s with
    | arguments => exact hall.of_append (.singleton .rightParen)
    | _ => exact hall.of_append .nil
  | operators c floor => exact .of_alternative h.2.2.2.1 h.2.2.1
  | stages floor => exact .of_alternative h.2.2 h.2.1
  | comparison =>
    obtain ⟨rfl, rfl⟩ := h
    exact .of_alternative (f := 0) (.of_production .valueExpressionDefault) rfl
  | grouping =>
    obtain ⟨rfl, rfl, rfl⟩ := h
    exact .of_alternative (f := 0) (.of_production .statsCommand) rfl
  | direction =>
    obtain ⟨rfl, rfl, rfl⟩ := h
    exact .of_alternative (f := 0)
      (.of_production (@Production.orderExpression [] [] (by decide) (by decide))) rfl
  | nulls =>
    obtain ⟨rfl, rfl, order, horder, rfl⟩ := h
    have hall := @Production.orderExpression order [] horder (by decide)
    rw [List.append_nil] at hall
    exact .of_alternative (f := 0) (.of_production hall) rfl
  | arguments =>
    obtain ⟨rfl, rfl, rfl⟩ := h
    have hall : Completable .primaryExpression
        (ground [.rule .identifier, .token .leftParen] ++ ground [.token .rightParen]) :=
      .of_alternative (f := 0) (.of_production .functionWithout) rfl
    exact hall.of_append (.singleton .rightParen)

/-- **What has been read of a node can be completed.** -/
theorem Fits.completable (h : Fits r f p l gs w) : Completable r gs := by
  -- From the end of the script backwards: the rest of the script leads to an alternative, and what
  -- a step adds to the body is filled in by some word.
  induction p generalizing l gs w with
  | done => exact .of_alternative h.1 h.2.1
  | step m p ih =>
    cases m with
    | relabel => exact ih h
    | check => exact ih h
    | wrap l' =>
      obtain ⟨g, ha, hp⟩ := h
      obtain ⟨x, hx⟩ := ih hp
      refine ⟨x, fun u hu => hx u ?_⟩
      exact .of_production ha.production hu
    | take set =>
      obtain ⟨⟨k, hk⟩, hp⟩ := h
      exact (ih (hp k [] hk)).of_append (.singleton k)
    | fail =>
      obtain rfl : gs = [] := h
      exact .nil r
    | sync => exact .of_alternative h.1 h.2
  | call r' f' p ih =>
    obtain ⟨x, hx⟩ := r'.exists_derives
    exact (ih (h.2 [] (stops_nil r' f'))).of_append hx
  | go q => exact Entered.completable h

/-! ## Readings -/

/-- What the end of a reading says of the word read, at a node of which `u` had been read. -/
def Outcome.Sound (r : Rule) (f : Nat) (u w : List Kind) : Outcome → Prop
  | .read n w' => ∃ gs v, w = v ++ w' ∧ Alternative f n.label gs ∧ n.label.rule = r ∧
      Stratified gs n.children (u ++ v) ∧ Stops r f w'
  | .stuck w' => ∃ v x, w = v ++ w' ∧ Derives [.rule r] (u ++ v ++ x)

theorem Outcome.Sound.append {u v w : List Kind} {o : Outcome} (h : o.Sound r f (u ++ v) w) :
    o.Sound r f u (v ++ w) := by
  cases o with
  | read n w' =>
    obtain ⟨gs, x, rfl, ha, hl, hs, hw⟩ := h
    exact ⟨gs, v ++ x, (List.append_assoc ..).symm, ha, hl, by rwa [← List.append_assoc], hw⟩
  | stuck w' =>
    obtain ⟨x, y, rfl, hd⟩ := h
    exact ⟨v ++ x, y, (List.append_assoc ..).symm, by rwa [← List.append_assoc u]⟩

/-- **Readings are sound.** A node read to the end is stratified, and no operator that it takes
comes next; what has been read before an error can be continued to a word of the rule. -/
theorem Reads.sound {n : Draft} {o : Outcome} (h : Reads p n w o) {u : List Kind}
    (hp : Fits r f p n.label gs w) (hn : Stratified gs n.children u) : o.Sound r f u w := by
  -- Along the reading, `gs` is the part of a body that has been read and `u` the word under it.
  induction h generalizing r f gs u with
  | done => exact ⟨gs, [], rfl, hp.1, hp.2.1, by rwa [List.append_nil], hp.2.2⟩
  | @step m p n n' w w' o hm hrest ih =>
    cases m with
    | relabel => cases hm; exact ih hp hn
    | check =>
      obtain ⟨_, rfl, rfl⟩ : _ ∧ n = n' ∧ w = w' := by simpa [Move.apply] using hm
      exact ih hp hn
    | wrap l' =>
      cases hm
      obtain ⟨g, ha, hp⟩ := hp
      exact ih hp (Groups.of_alternative ha hn)
    | take set =>
      cases w with
      | nil => cases hm
      | cons k w =>
        obtain ⟨hk, rfl, rfl⟩ : _ ∧ n.add (.token k) = n' ∧ w = w' := by
          simpa [Move.apply] using hm
        exact (ih (hp.2 k w hk) (hn.append (.token .nil))).append
    | fail | sync => cases hm
  | stuck hm =>
    obtain ⟨x, hx⟩ := hp.completable
    exact ⟨[], x, rfl, by rw [List.append_nil]; exact hx _ hn.derives⟩
  | @call r' f' p n n' w w' o _ _ ihr ihp =>
    obtain ⟨gs', v, rfl, ha, rfl, hv, hstop⟩ := ihr (opening_fits hp.1) .nil
    exact (ihp (hp.2 w' hstop) (hn.append (Groups.of_alternative ha hv))).append
  | @callStuck r' f' p n w w' _ ihr =>
    obtain ⟨v, x, rfl, hd⟩ := ihr (opening_fits hp.1) .nil
    -- The word below the call is continued twice: to the end of the rule called, and from there to
    -- the end of the rule that calls it.
    obtain ⟨y, hy⟩ := (hp.2 [] (stops_nil r' f')).completable
    refine ⟨v, x ++ y, rfl, ?_⟩
    have hall := hy (u ++ (v ++ x)) (by rw [List.map_append]; exact hn.derives.append hd)
    simpa using hall
  | go _ ih => exact ih (Phase.script_fits hp) hn

/-- A rule read to the end is a rule of the stratified grammar. -/
theorem Reads.groups {n : Draft} {w' : List Kind} (hr : r ≠ .singleStatement)
    (h : Reads (opening r f w) (.fresh r) w (.read n w')) :
    ∃ v, w = v ++ w' ∧ Groups r f n.shape v ∧ Stops r f w' := by
  obtain ⟨gs, v, rfl, ha, rfl, hs, hstop⟩ := h.sound (opening_fits hr) .nil
  exact ⟨v, rfl, .of_alternative ha hs, hstop⟩

/-- What has been read of a rule before an error can be continued to a word of the rule. -/
theorem Reads.exists_continuation {w' : List Kind} (hr : r ≠ .singleStatement)
    (h : Reads (opening r f w) (.fresh r) w (.stuck w')) :
    ∃ v x, w = v ++ w' ∧ Derives [.rule r] (v ++ x) :=
  h.sound (opening_fits hr) .nil

end PipeQuery.Parser

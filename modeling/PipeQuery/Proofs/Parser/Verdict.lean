import PipeQuery.Proofs.Parser.Entries

/-!
# What comes of a parse

A parse comes to one of three ends. Its tokens are read to the last, and the tree is what has been
read. Or the reading gets stuck or ends too early, and the tree, if there is one, keeps the error
that was met there. Or more rules were open than the options allow, which a parse that may open
four rules for each of its tokens does not come to.

## Main definitions

* `Verdict`: the three ends of a parse

## Main results

* `statement_verdict`, `expression_verdict`: the verdict on a query and on an expression
-/

namespace PipeQuery

namespace Parser

open Token (Kind KindSet)

/-- The ends of a parse that carries out the script `q` at the node `n`, before tokens of the kinds
`w`. Where a root is read, `root` is the shape of its tree. -/
inductive Verdict (options : Options) (q : Script) (n : Draft) (w : List Kind) (b : Nat)
    (root : Draft → Shape) : Except Failure ParseTree → Prop where
  /-- All tokens are read. -/
  | valid {t : ParseTree} {x : Subtree} {n' : Draft} (hx : t.IsWhole x) (hi : x.Intact)
    (hr : Reads q n w (.read n' [])) (hs : x.shape t.tokens = root n') :
    Verdict options q n w b root (.ok t)
  /-- The reading gets stuck, or leaves tokens. -/
  | faulty {res : Except Failure ParseTree} {o : Outcome} (hr : Reads q n w o)
    (ho : ∀ n', o ≠ .read n' []) (hv : ∀ t, res = .ok t → t.isValid = false)
    (hb : options.strategy = .bail →
      ∃ e, res = .error (.bailed e) ∧ e.index + o.rest.length = w.length) :
    Verdict options q n w b root res
  /-- Too many rules are open. -/
  | deep {failure : Failure} (h : options.maxDepth < b + 4 * w.length) :
    Verdict options q n w b root (.error failure)

variable {strategy : Strategy} {s s' : State} {x : Site} {p : Path} {res : Result} {options : Options}
  {t : ParseTree} {tokens : List Token} {w : List Kind}

theorem finish_of_failure {failure : Failure} (h : s.failure = some failure) :
    finish s = .error failure := by
  rw [finish, h]

theorem exists_finish_eq_error (h : s.failure.isSome = true) :
    ∃ failure, finish s = .error failure := by
  obtain ⟨failure, hf⟩ := Option.isSome_iff_exists.mp h
  exact ⟨failure, finish_of_failure hf⟩

/-- A tree keeps the first error. -/
theorem Errs.isValid_eq_false {y : Subtree} (h : Errs strategy s w res)
    (ht : finish res.state = .ok t) (hy : t.IsWhole y) : t.isValid = false := by
  obtain ⟨id, n, hn, he⟩ := h.faulty
  obtain ⟨hnodes, -⟩ := nodes_of_finish ht
  exact hy.isValid_eq_false (hnodes ▸ hn) he

/-- A parse that bails out ends with the first error. -/
theorem Errs.finish_eq_error (h : Errs strategy s w res) (hb : strategy = .bail) :
    ∃ e, finish res.state = .error (.bailed e) ∧ e.index + w.length + 1 = s.stream.size := by
  obtain ⟨s', e, rfl, hf, hindex⟩ := h.bailed hb
  exact ⟨e, finish_of_failure hf, hindex⟩

/-- The verdict on a first error. -/
theorem Errs.verdict {q : Script} {n : Draft} {b : Nat} {root : Draft → Shape} {o : Outcome}
    (h : Errs options.strategy s o.rest res) (hs : s.stream = .ofList tokens)
    (hr : Reads q n (TokenStream.ofList tokens).coming o) (ho : ∀ n', o ≠ .read n' [])
    (hwhole : ∀ t, finish res.state = .ok t → ∃ y, t.IsWhole y) :
    Verdict options q n (TokenStream.ofList tokens).coming b root (finish res.state) := by
  refine .faulty hr ho (fun t ht => ?_) fun hb => ?_
  · obtain ⟨y, hy⟩ := hwhole t ht
    exact h.isValid_eq_false ht hy
  · obtain ⟨e, he, hindex⟩ := h.finish_eq_error hb
    have hadd := (TokenStream.proper_ofList tokens).cursor_add
    rw [hs, ← hadd] at hindex
    have hzero : (TokenStream.ofList tokens).cursor = 0 := rfl
    rw [hzero] at hindex
    exact ⟨e, he, by omega⟩

/-- There is something to parse unless the parse says that there is not. -/
theorem isEmpty_eq_false_of_run {entry : Run Unit} {res : Except Failure ParseTree}
    (h : run entry tokens = res) (hres : res ≠ .error .emptyInput) :
    (TokenStream.ofList tokens).isEmpty = false := by
  rw [run] at h
  split at h
  · exact absurd h.symm hres
  · rename_i hne
    exact Bool.eq_false_iff.mpr hne

/-! ## Queries -/

theorem opened_onCourse (tokens : List Token) :
    OnCourse (opened tokens) ⟨0, .singleStatement, ⟨0, 0⟩, none, []⟩ [] :=
  ⟨opened_tracks tokens, ⟨rfl, trivial⟩, opened_proper tokens, rfl, rfl⟩

theorem OnCourse.next_ne (h : OnCourse s x p) (hw : s.coming ≠ []) :
    next s.coming ≠ .endOfInput :=
  fun hk => hw (h.proper.coming_eq_nil hk)

theorem finish_of_builds (hb : s.arena.Builds [x]) (hf : s.failure = none) :
    ∃ t, finish s = .ok t ∧ t.IsWhole x.subtree ∧ t.tokens = s.stream.tokens := by
  have hroot : s.arena.root = some x.id := hb.root_eq
  have ha : s.arena.finish s.stream.tokens =
      some ⟨s.stream.tokens, s.arena.nodes, x.id, s.arena.reported⟩ := by
    rw [Arena.finish, hroot]
    rfl
  refine ⟨_, ?_, hb.isWhole ha⟩
  rw [finish, hf, ha]

/-- Where a query has been read up to the end of the input, its tree is complete. -/
theorem OnCourse.statement_valid (h : OnCourse s x []) (strategy : Strategy)
    (hnil : s.coming = []) :
    ∃ t y, finish (Result.state (closing (expectOneOf strategy (.ofList [.endOfInput]) s))) = .ok t ∧
      t.IsWhole y ∧ y.Intact ∧
      y.shape t.tokens = ((x.draft s.stream.tokens).add (.token .endOfInput)).shape := by
  have hk : s.kindAt 1 = .endOfInput := by rw [kindAt_one h.proper, hnil, next_nil]
  have hkind : (s.stream.tokens[s.cursor]?.getD default).kind = .endOfInput := by
    have := h.proper.token_kind
    rw [← State.coming, hnil] at this
    exact this
  rw [expectOneOf_eq, hk, if_pos (by simp)]
  show ∃ t y, finish s.consume.leave = .ok t ∧ _
  obtain ⟨t, ht, hwhole, htokens⟩ := finish_of_builds h.tracks.consume.leave_root
    ((failure_leave _).trans h.failure_eq)
  have hstay : s.consume.stream = s.stream := h.proper.consume_of_nil hnil
  rw [stream_leave, hstay] at htokens
  refine ⟨t, _, ht, hwhole, ⟨h.intact.1, ?_⟩, ?_⟩
  · exact (Subtree.allIntact_append _ _).mpr ⟨h.intact.2, trivial, trivial⟩
  · rw [htokens]
    simp [Site.subtree, Site.close, Site.draft, Draft.add, Draft.shape, Subtree.shape,
      Subtree.shapes_append, Subtree.shapes, hkind]

/-- **The verdict on a query.** -/
theorem statement_verdict (options : Options) (hne : (TokenStream.ofList tokens).isEmpty = false) :
    Verdict options (.only .query) ⟨.singleStatement, []⟩ (TokenStream.ofList tokens).coming 8
      (fun n => (n.add (.token .endOfInput)).shape) (parseTokens options tokens) := by
  have hwhole (t : ParseTree) (ht : parseTokens options tokens = .ok t) : ∃ y, t.IsWhole y := by
    obtain ⟨e, cs, n, hx, -⟩ := statement_tree ht
    exact ⟨_, hx⟩
  rw [parseTokens, run_eq, hne, if_neg Bool.false_ne_true] at hwhole ⊢
  cases hd : options.maxDepth with
  | zero =>
    obtain ⟨failure, hf⟩ : ∃ failure, finish (Result.state (closing
        (failTooDeep options.maxDepth (opened tokens)))) = .error failure :=
      exists_finish_eq_error (closing_ends (failTooDeep_ends options.maxDepth (opened tokens))).1
    rw [parseRule, within_eq]
    rw [opened] at hf
    rw [hf]
    exact .deep (by omega)
  | succ d =>
    rw [hd, parseRule_statement] at hwhole
    rw [parseRule_statement]
    have hproper := opened_proper tokens
    have hcall := query_calls options d tokens
    have hadv := (hcall.evolves hproper).advances
    have hsim := (Executes.single_call (by decide) hcall hproper).simulated (opened_onCourse tokens)
    generalize parseRule options d .query 0 (opened tokens) = res at hsim hwhole hadv ⊢
    -- The query is read up to some token, or it gets stuck, or too many rules are open.
    cases hsim with
    | @read u y hu hr =>
      have htokens : u.stream.tokens = (opened tokens).stream.tokens := hadv.tokens_eq
      rw [← htokens] at hr
      by_cases hnil : u.coming = []
      · rw [hnil] at hr
        obtain ⟨t, z, ht, hz, hi, hs⟩ := hu.statement_valid options.strategy hnil
        simp only [ht]
        exact .valid hz hi hr hs
      · -- Where the query stops before the end of the input, the statement meets the first error.
        have hset : (KindSet.ofList [.endOfInput]).contains (next u.coming) = false := by
          simpa using hu.next_ne hnil
        have herrs := expectOneOf_errs hu options.strategy hset
        refine Errs.verdict (s := opened tokens) (o := .read _ u.coming) (herrs.closing.congr htokens)
          rfl hr ?_ hwhole
        intro n hn
        exact hnil (Outcome.read.inj hn).2
    | @stuck _ w hr he =>
      refine Errs.verdict (s := opened tokens) (o := .stuck w) (Errs.closing ?_) rfl hr
        (fun n hn => by cases hn) hwhole
      cases res with
      | error a u => exact he
      | ok _ u => exact he.trans_keeps (expectOneOf_keepsErrors ..)
    | @deep u hf hd' =>
      have hdeep : d < 7 + 4 * (opened tokens).coming.length := hd' 7 ⟨by decide, trivial⟩
      obtain ⟨failure, hfinish⟩ := exists_finish_eq_error (s := u.leave) ((failure_leave u).symm ▸ hf)
      show Verdict _ _ _ _ _ _ (finish u.leave)
      rw [hfinish]
      refine .deep ?_
      rw [hd]
      have hcoming : (opened tokens).coming = (TokenStream.ofList tokens).coming := rfl
      rw [hcoming] at hdeep
      omega

/-! ## Expressions -/

theorem openedExpression_onCourse (tokens : List Token) (floor : Nat) :
    OnCourse (openedExpression tokens floor) ⟨0, .ofRule .booleanExpression, ⟨0, 0⟩, none, []⟩ [] :=
  ⟨openedExpression_tracks tokens floor, ⟨rfl, trivial⟩, TokenStream.proper_ofList tokens, rfl, rfl⟩

/-- Where an expression has been read up to the end of the input, its tree is complete. -/
theorem OnCourse.expression_valid (h : OnCourse s x []) (strategy : Strategy)
    (hnil : s.coming = []) :
    ∃ t y, finish (Result.state (trailing strategy s.leave)) = .ok t ∧ t.IsWhole y ∧ y.Intact ∧
      y.shape t.tokens = (x.draft s.stream.tokens).shape := by
  have hk : s.leave.kindAt 1 = .endOfInput := by
    rw [kindAt_leave, kindAt_one h.proper, hnil, next_nil]
  rw [trailing, if_neg (not_not_intro hk)]
  obtain ⟨t, ht, hwhole, htokens⟩ := finish_of_builds h.tracks.leave_root
    ((failure_leave _).trans h.failure_eq)
  rw [stream_leave] at htokens
  refine ⟨t, _, ht, hwhole, h.intact, ?_⟩
  rw [htokens, Site.subtree, Subtree.shape]
  rfl

/-- What stands behind an expression that has been read is the first error. -/
theorem OnCourse.trailing_errs (h : OnCourse s x []) (strategy : Strategy) (hw : s.coming ≠ []) :
    Errs strategy s s.coming (trailing strategy s.leave) := by
  have herrs : Errs strategy s.leave s.leave.coming (trailing strategy s.leave) := by
    refine Parser.trailing_errs h.tracks.leave_root _ ?_ ?_ ?_ ?_
    · rw [stream_leave]
      exact h.proper
    · rw [recovering_leave]
      exact h.recovering_eq
    · rw [failure_leave]
      exact h.failure_eq
    · rw [kindAt_leave, kindAt_one h.proper]
      exact h.next_ne hw
  rw [coming_leave] at herrs
  exact herrs.congr (congrArg TokenStream.tokens (stream_leave s))

/-- **The verdict on an expression.** -/
theorem expression_verdict (options : Options) (floor : Nat)
    (hne : (TokenStream.ofList tokens).isEmpty = false) :
    Verdict options (opening .booleanExpression floor (TokenStream.ofList tokens).coming)
      (.fresh .booleanExpression) (TokenStream.ofList tokens).coming 6 Draft.shape
      (parseExpressionTokens options floor tokens) := by
  have hwhole (t : ParseTree) (ht : parseExpressionTokens options floor tokens = .ok t) :
      ∃ y, t.IsWhole y := by
    obtain ⟨y, n, hy, -⟩ := expression_tree ht
    exact ⟨y, hy⟩
  rw [parseExpressionTokens, run_eq, hne, if_neg Bool.false_ne_true, standalone_eq] at hwhole ⊢
  have hproper := start_proper tokens
  have hcall := standalone_calls options floor tokens
  generalize parseRule options options.maxDepth .booleanExpression floor (.start (.ofList tokens)) =
    res at hcall hwhole ⊢
  cases hd : options.maxDepth with
  | zero =>
    rw [hd, Calls] at hcall
    subst hcall
    obtain ⟨failure, hf⟩ : ∃ failure, finish (State.leave (Result.state
        (failTooDeep 0 (openedExpression tokens floor)))) = .error failure :=
      exists_finish_eq_error (closing_ends (failTooDeep_ends 0 (openedExpression tokens floor))).1
    refine (congrArg (Verdict _ _ _ _ _ _) hf).mpr (.deep ?_)
    omega
  | succ d =>
    rw [hd, Calls] at hcall
    obtain ⟨res', hb, rfl⟩ := hcall
    change Executes _ _ d _ (openedExpression tokens floor) res' at hb
    have hadv := (hb.evolves hproper).advances
    -- As for a query, but what is left behind the expression is told of by the entry itself.
    cases hb.simulated (openedExpression_onCourse tokens floor) with
    | @read u y hu hr =>
      have htokens : u.stream.tokens = (openedExpression tokens floor).stream.tokens :=
        hadv.tokens_eq
      rw [← htokens] at hr
      by_cases hnil : u.coming = []
      · rw [hnil] at hr
        obtain ⟨t, z, ht, hz, hi, hs⟩ := hu.expression_valid options.strategy hnil
        exact (congrArg (Verdict _ _ _ _ _ _) ht).mpr (.valid hz hi hr hs)
      · refine Errs.verdict (s := openedExpression tokens floor) (o := .read _ u.coming)
          ((hu.trailing_errs _ hnil).congr htokens) rfl hr (fun n hn => ?_) hwhole
        exact hnil (Outcome.read.inj hn).2
    | @stuck _ w hr he =>
      have herrs := he.closing
      refine Errs.verdict (s := openedExpression tokens floor) (o := .stuck w) ?_ rfl hr
        (fun n hn => by cases hn) hwhole
      cases hc : closing res' with
      | error a u => rwa [hc] at herrs
      | ok _ u =>
        rw [hc] at herrs
        exact herrs.trans_keeps (trailing_keepsErrors ..)
    | @deep u hf hd' =>
      have hdeep := hd' 5 (opening_affordable .booleanExpression floor _)
      obtain ⟨failure, hfinish⟩ := exists_finish_eq_error (s := u.leave) ((failure_leave u).symm ▸ hf)
      refine (congrArg (Verdict _ _ _ _ _ _) hfinish).mpr (.deep ?_)
      have hcoming : (openedExpression tokens floor).coming = (TokenStream.ofList tokens).coming :=
        rfl
      rw [hcoming] at hdeep
      omega

end Parser

end PipeQuery

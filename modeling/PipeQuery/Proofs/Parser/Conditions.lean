import PipeQuery.Proofs.Parser.Containment
import PipeQuery.Proofs.Parser.Floor
import PipeQuery.Proofs.Parser.Limit

/-!
# Conditions of queries

An expression is parsed alike where it stands alone and where it is the condition of a query. Before
the condition the query has made eight nodes and matched four tokens, and four more rules are open;
apart from that the condition goes along with the expression, step by step, and the same is built.

## Main definitions

* `Standing`: a state on course, with what is behind it and what is to come
* `whereQuery`: the tree of a query with a source and a condition

## Main results

* `Standing.executes_source`, `Standing.executes_condition`: how a query comes to its condition, and
  to its end
* `Standing.parses_condition`: a condition is built as the expression is
* `expression_embeds`: the tree of an expression stands in that of the query
-/

namespace PipeQuery.Parser

open Token (Kind KindSet)
open Script

variable {options : Options} {strategy : Strategy} {limit d n c : Nat} {r : Rule} {f : Nat}
  {q : Script} {k : Kind} {w : List Kind} {s t : State} {x y z : Site} {p : Path} {res : Result}
  {tokens tokens' : List Token} {tree : ParseTree}

/-! ## States and what is built so far -/

/-- A state on course. The arena has `n` nodes, the next token is at the place `c`, and the kinds
`w` are to come. -/
structure Standing (s : State) (x : Site) (p : Path) (n c : Nat) (w : List Kind) : Prop where
  onCourse : OnCourse s x p
  size_eq : s.arena.size = n
  cursor_eq : s.cursor = c
  coming_eq : s.coming = w

theorem Standing.enter (h : Standing s x p n c w) (r : Rule) (f : Nat) :
    Standing (s.enter (.ofRule r) f) (.opened n (.ofRule r) c) (x :: p) (n + 1) c w := by
  obtain ⟨hc, rfl, rfl, rfl⟩ := h
  exact ⟨hc.enter r f, Arena.size_openNode .., rfl, rfl⟩

theorem Standing.relabel (h : Standing s x p n c w) (l : Label) :
    Standing (s.relabel l) { x with label := l } p n c w := by
  obtain ⟨hc, rfl, rfl, rfl⟩ := h
  exact ⟨hc.relabel, Arena.size_relabel .., rfl, rfl⟩

theorem Standing.wrap (h : Standing s x p n c w) (l : Label) :
    Standing (s.wrap l) (x.wrap n l c) p (n + 1) c w := by
  obtain ⟨hc, rfl, rfl, rfl⟩ := h
  exact ⟨hc.wrap l, hc.tracks.size_wrap l, cursor_wrap s l, coming_wrap s l⟩

theorem Standing.consume (h : Standing s x p n c (k :: w)) :
    Standing s.consume (x.add (.token c)) p n (c + 1) w := by
  obtain ⟨hc, rfl, rfl, hw⟩ := h
  obtain ⟨hc', hcoming, hcursor⟩ := hc.consume hw
  exact ⟨hc', Arena.size_push .., hcursor, hcoming⟩

theorem Standing.leave (h : Standing s y (x :: p) n c w) (hx : x.Intact) :
    Standing s.leave (x.add (y.close c).subtree) p n c w := by
  obtain ⟨hc, rfl, rfl, rfl⟩ := h
  exact ⟨hc.leave hx, Parallel.size_leave s, cursor_leave s, coming_leave s⟩

/-- A token that comes next is matched. -/
theorem Standing.token (h : Standing s x p n c (k :: w))
    (hq : Executes strategy limit d q s.consume res) :
    Executes strategy limit d (.token k q) s res := by
  have hne : k ≠ .endOfInput := ne_of_coming h.onCourse.proper h.coming_eq
  have hplain : (Move.take (.ofList [k])).Plain := by
    simpa [Move.Plain] using hne.symm
  have hnext : next s.coming = k := by rw [h.coming_eq, next_cons]
  exact .step hplain (take_run h.onCourse.proper hnext) hq

/-- A token of a set that comes next is matched. -/
theorem Standing.take (h : Standing s x p n c (k :: w)) {set : KindSet}
    (hk : set.contains k = true) :
    (Move.take set).run strategy s = .ok () s.consume := by
  have hkind : s.kindAt 1 = k := by rw [kindAt_one h.onCourse.proper, h.coming_eq, next_cons]
  rw [Move.run, expectOneOf_eq, hkind, if_pos hk]

/-- A rule that comes to its end. -/
theorem Executes.called (hr : r ≠ .singleStatement) (hw : s.coming = w)
    (hb : Executes strategy limit d (opening r f w) (s.enter (.ofRule r) f) (.ok () t))
    (hq : Executes strategy limit (d + 1) q t.leave res) :
    Executes strategy limit (d + 1) (.call r f q) s res := by
  rw [← hw] at hb
  exact .call hr hb rfl hq

/-! ## Up to the condition -/

/-- The node of a source. -/
def sourceSubtree (n c : Nat) : Subtree :=
  .node n (.ofRule .sourceCommand) ⟨c, c + 2⟩ none
    [.node (n + 1) (.ofRule .fromCommand) ⟨c, c + 2⟩ none
      [.token c, .node (n + 2) (.ofRule .sourceIdentifier) ⟨c + 1, c + 2⟩ none [.token (c + 1)]]]

/-- The state at the name of a source. -/
def State.atName (s : State) : State :=
  ((s.enter (.ofRule .sourceCommand) 0).enter (.ofRule .fromCommand) 0).consume.enter
    (.ofRule .sourceIdentifier) 0

/-- The state behind a source. -/
def State.behindSource (s : State) : State := s.atName.consume.leave.leave.leave

theorem Standing.behindSource (h : Standing s x p n c (.fromCmd :: .sourceName :: w)) :
    Standing s.behindSource (x.add (sourceSubtree n c)) p (n + 3) (c + 2) w := by
  have hcommand := h.enter .sourceCommand 0
  have hfrom := (hcommand.enter .fromCommand 0).consume
  have hname := (hfrom.enter .sourceIdentifier 0).consume
  have hend := ((hname.leave hfrom.onCourse.intact).leave hcommand.onCourse.intact).leave
    h.onCourse.intact
  have hstop : max (c + 1 + 1) c = c + 2 := by omega
  simpa [Site.add, Site.close, Site.subtree, Site.opened, sourceSubtree, State.behindSource,
    State.atName, hstop] using hend

/-- **A source is parsed** in front of a pipe. -/
theorem Standing.executes_source (h : Standing s x p n c (.fromCmd :: .sourceName :: .pipe :: w))
    (hq : Executes strategy limit (d + 3) q s.behindSource res) :
    Executes strategy limit (d + 3) (.call .sourceCommand 0 q) s res := by
  have hcommand := h.enter .sourceCommand 0
  have hfrom := hcommand.enter .fromCommand 0
  have hname := hfrom.consume.enter .sourceIdentifier 0
  have hbody : Executes strategy limit d (opening .sourceIdentifier 0 (.sourceName :: .pipe :: w))
      s.atName (.ok () s.atName.consume) :=
    .step (by decide) (hname.take (by decide)) .done
  -- A pipe does not separate sources.
  have hend : s.atName.consume.leave.coming = .pipe :: w :=
    (hname.consume.leave hfrom.consume.onCourse.intact).coming_eq
  have hmore : Executes strategy limit (d + 1) (.go (.more .sources)) s.atName.consume.leave
      (.ok () s.atName.consume.leave) := by
    refine .go ?_
    rw [hend]
    exact .done
  have hsources : Executes strategy limit (d + 1)
      (opening .fromCommand 0 (.fromCmd :: .sourceName :: .pipe :: w))
      ((s.enter (.ofRule .sourceCommand) 0).enter (.ofRule .fromCommand) 0)
      (.ok () s.atName.consume.leave) :=
    hfrom.token (.called (by decide) hfrom.consume.coming_eq hbody hmore)
  exact .called (by decide) h.coming_eq (.called (by decide) hcommand.coming_eq hsources .done) hq

/-- The state at the condition of a query that goes on behind a pipe. -/
def State.atCondition (s : State) : State :=
  ((s.piped.enter (.ofRule .processingCommand) 0).enter (.ofRule .whereCommand) 0).consume

/-- The open nodes at a condition. -/
def conditionPath (x : Site) (p : Path) (n c : Nat) : Path :=
  (Site.opened (n + 2) (.ofRule .whereCommand) (c + 1)).add (.token (c + 1)) ::
    Site.opened (n + 1) (.ofRule .processingCommand) (c + 1) ::
      (x.wrap n .compositeQuery c).add (.token c) :: p

theorem Standing.atCondition (h : Standing s x p n c (.pipe :: .whereCmd :: w)) :
    ∃ y p', conditionPath x p n c = y :: p' ∧ Standing s.atCondition y p' (n + 3) (c + 2) w :=
  ⟨_, _, rfl, (((h.wrap .compositeQuery).consume.enter .processingCommand 0).enter
    .whereCommand 0).consume⟩

/-- A condition that is parsed is that of the query, which ends behind it. -/
theorem Standing.executes_condition (h : Standing s x p n c (.pipe :: .whereCmd :: w))
    (hb : Executes strategy limit d (opening .booleanExpression 0 w)
      (s.atCondition.enter (.ofRule .booleanExpression) 0) (.ok () t))
    (hnil : t.coming = []) :
    Executes strategy limit (d + 3) (.go (.stages 0)) s (.ok () t.leave.leave.leave) := by
  have hpipe := (h.wrap .compositeQuery).consume
  have hcommand := hpipe.enter .processingCommand 0
  have hwhere := hcommand.enter .whereCommand 0
  have hcondition : Executes strategy limit (d + 1) (opening .whereCommand 0 (.whereCmd :: w))
      ((s.piped.enter (.ofRule .processingCommand) 0).enter (.ofRule .whereCommand) 0)
      (.ok () t.leave) :=
    hwhere.token (.called (by decide) hwhere.consume.coming_eq hb .done)
  have hstage : Executes strategy limit (d + 2) (opening .processingCommand 0 (.whereCmd :: w))
      (s.piped.enter (.ofRule .processingCommand) 0) (.ok () t.leave.leave) :=
    .called (by decide) hcommand.coming_eq hcondition .done
  -- Behind the condition stands the end of the input.
  have hend : t.leave.leave.leave.coming = [] := by
    rw [coming_leave, coming_leave, coming_leave]
    exact hnil
  have hstages : Executes strategy limit (d + 3) (.go (.stages 0)) t.leave.leave.leave
      (.ok () t.leave.leave.leave) := by
    refine .go ?_
    rw [hend]
    exact .done
  refine .go ?_
  rw [h.coming_eq]
  refine .step (by decide) rfl ((h.wrap .compositeQuery).token ?_)
  exact .called (by decide) hpipe.coming_eq hstage hstages

/-- The node of a stage with a condition that ends before the token `e`. -/
def conditionSubtree (n c e : Nat) (condition : Subtree) : Subtree :=
  .node n (.ofRule .processingCommand) ⟨c, e⟩ none
    [.node (n + 1) (.ofRule .whereCommand) ⟨c, e⟩ none [.token c, condition]]

theorem Standing.behindCondition {m e : Nat} (h : Standing s x p n c (.pipe :: .whereCmd :: w))
    (hz : Standing t z (conditionPath x p n c) m e []) (he : c + 1 ≤ e) :
    Standing t.leave.leave.leave (((x.wrap n .compositeQuery c).add (.token c)).add
      (conditionSubtree (n + 1) (c + 1) e (z.close e).subtree)) p m e [] := by
  have hpipe := (h.wrap .compositeQuery).consume
  have hcommand := hpipe.enter .processingCommand 0
  have hwhere := (hcommand.enter .whereCommand 0).consume
  have hend := ((hz.leave hwhere.onCourse.intact).leave hcommand.onCourse.intact).leave
    hpipe.onCourse.intact
  simpa [Site.add, Site.close, Site.subtree, Site.opened, conditionSubtree, he] using hend

/-! ## From the condition to the tree -/

/-- The body of an expression whose tree is valid comes to the end of the input. -/
theorem expression_body (ht : parseExpressionTokens options 0 tokens = .ok tree)
    (hv : tree.isValid = true) :
    ∃ d m t, options.maxDepth = d + 1 ∧
      Reads (opening .booleanExpression 0 (TokenStream.ofList tokens).coming)
        (.fresh .booleanExpression) (TokenStream.ofList tokens).coming (.read m []) ∧
      Executes options.strategy options.maxDepth d
        (opening .booleanExpression 0 (TokenStream.ofList tokens).coming)
        (openedExpression tokens 0) (.ok () t) ∧
      parseRule options options.maxDepth .booleanExpression 0 (.start (.ofList tokens)) =
        .ok () t.leave := by
  obtain ⟨-, ⟨d, hd⟩, u, hu⟩ := exists_ok_of_tree ht
  obtain ⟨_, -, m, hr, -⟩ := expression_reads ht hv
  have hcall := standalone_calls options 0 tokens
  rw [hu, hd] at hcall
  obtain ⟨res, hb, hres⟩ := hcall
  have hc := openedExpression_onCourse tokens 0
  obtain ⟨t, rfl⟩ : ∃ t, res = .ok () t := by
    rcases OnCourse.reads_ok (s := .start (.ofList tokens)) hc hb hr with hok | ⟨⟨t, rfl⟩, -⟩
    · exact hok
    · cases hres
  exact ⟨d, m, t, hd, hr, hd ▸ hb, hu.trans hres⟩

/-- A condition goes along with the expression that stands alone. -/
theorem Standing.parallel (h : Standing s x p n c (TokenStream.ofList tokens).coming) :
    Parallel n c 0 0 (openedExpression tokens 0) (.opened 0 (.ofRule .booleanExpression) 0) []
      (s.enter (.ofRule .booleanExpression) 0) (.opened n (.ofRule .booleanExpression) c)
      (x :: p) := by
  have hs := h.enter .booleanExpression 0
  constructor
  case left => exact openedExpression_onCourse tokens 0
  case right => exact hs.onCourse
  case coming_eq => exact hs.coming_eq
  case size_eq =>
    rw [hs.size_eq]
    exact Nat.add_comm n 1
  case cursor_eq =>
    rw [hs.cursor_eq]
    exact Nat.add_comm c 0
  case site_eq => simp [Site.shift_opened]

/-- **An expression that has a valid tree** is parsed as a condition, and the same is built. -/
theorem Standing.parses_condition (h : Standing s x p n c (TokenStream.ofList tokens).coming)
    (ht : parseExpressionTokens options 0 tokens = .ok tree) (hv : tree.isValid = true)
    (limit : Nat) :
    ∃ d, options.maxDepth = d + 1 ∧ ∃ u z m, Executes options.strategy limit d
        (opening .booleanExpression 0 (TokenStream.ofList tokens).coming)
        (s.enter (.ofRule .booleanExpression) 0) (.ok () u) ∧
      Standing u z (x :: p) m (c + (tree.tokens.size - 1)) [] ∧
      (z.close (c + (tree.tokens.size - 1))).subtree = (tree.subtree tree.root).shift n c := by
  obtain ⟨d, _, t, hd, hr, hb, hu⟩ := expression_body ht hv
  -- The condition comes to its end too, with the same number of rules still to be opened.
  obtain ⟨res, hb', -⟩ := parseRule_calls ⟨limit, options.strategy⟩ (d := d + 1)
    (r := .booleanExpression) (f := 0) (s := s) (by decide) h.onCourse.proper
  rw [h.coming_eq] at hb'
  obtain ⟨t', rfl⟩ := hr.parallel_ok rfl h.parallel rfl rfl hb hb'
  obtain ⟨y, z, hp, -, -, hnil, -⟩ := hr.parallel rfl h.parallel rfl rfl hb hb'
  obtain ⟨tree', htree, hwhole, htokens⟩ :=
    expression_finish (exists_ok_of_tree ht).1 hu hp.left hnil
  cases ht.symm.trans htree
  have hcursor : tree.tokens.size = t.cursor + 1 := by
    have hadd := hp.left.proper.cursor_add
    rw [← State.coming, hnil, TokenStream.size, ← htokens] at hadd
    exact hadd.symm
  have hcursor' : t'.cursor = c + (tree.tokens.size - 1) := by
    have hadd := hp.cursor_eq
    omega
  refine ⟨d, hd, t', z, t'.arena.size, hb', ⟨hp.right, rfl, hcursor', ?_⟩, ?_⟩
  · exact hp.coming_eq.trans hnil
  · have hsite : (z.close t'.cursor).shift 0 0 = (y.close t.cursor).shift n c := by
      rw [Site.shift_close, Site.shift_close, hp.site_eq, hp.cursor_eq]
    rw [hwhole.subtree_root, ← hcursor', ← Site.shift_subtree, ← hsite, Site.shift_subtree,
      Subtree.shift_zero]

/-! ## Queries -/

/-- **The tree of a query** that comes to the end of the input without an error. -/
theorem query_tree (hne : (TokenStream.ofList tokens).isEmpty = false)
    (hd : options.maxDepth = d + 2)
    (he : Executes options.strategy options.maxDepth d
      (opening .query 0 (TokenStream.ofList tokens).coming)
      ((opened tokens).enter (.ofRule .query) 0) (.ok () s))
    (h : Standing s x [statementRoot] n c []) :
    ∃ t, parseTokens options tokens = .ok t ∧
      t.IsWhole (.node 0 .singleStatement ⟨0, c⟩ none [(x.close c).subtree, .token c]) ∧
      t.isValid = true ∧ t.tokens = (TokenStream.ofList tokens).tokens := by
  obtain ⟨res, hquery, hclosing⟩ := query_calls options (d + 1) tokens
  cases he.unique hquery
  have hend := h.leave (opened_onCourse tokens).intact
  have hk : s.leave.kindAt 1 = .endOfInput := by
    rw [kindAt_one hend.onCourse.proper, hend.coming_eq, next_nil]
  -- The end of the input is matched without moving on, and the root gets it.
  have hstay : s.leave.consume.stream = s.leave.stream :=
    hend.onCourse.proper.consume_of_nil hend.coming_eq
  obtain ⟨t, ht, hwhole, htokens⟩ := finish_of_builds hend.onCourse.tracks.consume.leave_root
    ((failure_leave _).trans hend.onCourse.failure_eq)
  refine ⟨t, ?_, ?_, ?_, ?_⟩
  · rw [parseTokens, run_eq, hne, if_neg Bool.false_ne_true, hd, parseRule_statement, hclosing]
    show finish (Result.state (closing (expectOneOf _ _ s.leave))) = _
    rw [expectOneOf_eq, hk, if_pos (by simp)]
    exact ht
  · have hcursor : s.leave.consume.cursor = c := by
      rw [State.cursor, hstay, ← State.cursor, hend.cursor_eq]
    rw [hcursor, hend.cursor_eq] at hwhole
    simpa [Site.add, Site.close, Site.subtree, statementRoot] using hwhole
  · exact hwhole.isValid_iff.mpr
      ⟨rfl, (Subtree.allIntact_append _ _).mpr ⟨hend.onCourse.intact.2, trivial, trivial⟩⟩
  · rw [htokens, stream_leave, hstay, stream_leave]
    exact (he.evolves (s := (opened tokens).enter (.ofRule .query) 0)
      (opened_proper tokens)).advances.tokens_eq

/-- The tree of a query with a source and a condition, whose end of input is the token `e`. -/
def whereQuery (condition : Subtree) (e : Nat) : Subtree :=
  .node 0 .singleStatement ⟨0, e⟩ none
    [.node 5 .compositeQuery ⟨0, e⟩ none
      [.node 1 .singleCommandQuery ⟨0, 2⟩ none [sourceSubtree 2 0], .token 2,
        conditionSubtree 6 3 e condition],
      .token e]

theorem whereCommand_mem (condition : Subtree) (e : Nat) :
    .node 7 (.ofRule .whereCommand) ⟨3, e⟩ none [.token 3, condition] ∈
      (whereQuery condition e).nodes := by
  simp [whereQuery, conditionSubtree, Subtree.nodes, Subtree.nodesOf]

theorem condition_mem {l : Label} {span : TokenSpan} {error : Option SyntaxError}
    {children : List Subtree} (id : NodeId) (e : Nat) :
    .node id l span error children ∈ (whereQuery (.node id l span error children) e).nodes := by
  simp [whereQuery, conditionSubtree, Subtree.nodes, Subtree.nodesOf]

/-- The tokens of a stream stand behind further ones that do not end the input. -/
theorem toList_tokens_append {source : List Token} (hsource : ∀ t ∈ source, t.isEof = false)
    (hne : tokens ≠ []) : (TokenStream.ofList (source ++ tokens)).tokens.toList =
      source ++ (TokenStream.ofList tokens).tokens.toList := by
  rw [TokenStream.toList_tokens_ofList, TokenStream.toList_tokens_ofList,
    TokenStream.body_append hsource, TokenStream.closing_append hsource hne, List.append_assoc]

/-- The query behind a source is parsed up to its condition, and from there on as the expression. -/
theorem parses_whereQuery (hw : (TokenStream.ofList tokens').coming =
      .fromCmd :: .sourceName :: .pipe :: .whereCmd :: (TokenStream.ofList tokens).coming)
    (h : parseExpressionTokens options 0 tokens = .ok tree) (hv : tree.isValid = true) :
    ∃ t, parseTokens ⟨options.maxDepth + 4, options.strategy⟩ tokens' = .ok t ∧
      t.IsWhole (whereQuery ((tree.subtree tree.root).shift 8 4) (tree.tokens.size + 3)) ∧
      t.isValid = true ∧ t.tokens = (TokenStream.ofList tokens').tokens := by
  have hstatement : Standing (opened tokens') statementRoot [] 1 0 _ :=
    ⟨opened_onCourse tokens', rfl, rfl, hw⟩
  have hquery := (hstatement.enter .query 0).relabel .singleCommandQuery
  obtain ⟨y, p, hpath, hcondition⟩ := hquery.behindSource.atCondition
  obtain ⟨d, hd, u, z, m, hb, hz, hsubtree⟩ :=
    hcondition.parses_condition h hv (options.maxDepth + 4)
  rw [← hpath] at hz
  have hend := hquery.behindSource.behindCondition hz (by omega)
  -- The rest of the query is executed around the condition.
  have hexecutes := hquery.executes_source
    (hquery.behindSource.executes_condition hb hz.coming_eq)
  have hne : (TokenStream.ofList tokens').coming ≠ [] := by
    rw [hw]
    exact List.cons_ne_nil _ _
  have hdepth : (⟨options.maxDepth + 4, options.strategy⟩ : Options).maxDepth = d + 3 + 2 :=
    congrArg (· + 4) hd
  obtain ⟨t, ht, hwhole, hvalid, htokens⟩ := query_tree (isEmpty_eq_false hne) hdepth
    (.step (by decide) rfl hexecutes) hend
  refine ⟨t, ht, ?_, hvalid, htokens⟩
  have hsize : 0 + 2 + 2 + (tree.tokens.size - 1) = tree.tokens.size + 3 := by
    obtain ⟨_, n, -, -, -, hn⟩ := expression_tree h
    omega
  rw [hsubtree, hsize] at hwhole
  simpa [whereQuery, Site.add, Site.wrap, Site.close, Site.subtree, Site.opened] using hwhole

/-- **Expressions are parsed alike by both entries.** What is a valid expression where it stands
alone is the condition of a query behind the simplest source, with four more rules to be opened: the
query is valid, it has no other stages, and the subtree of its condition is that of the expression,
where nodes are moved by eight and tokens by four. -/
theorem expression_embeds (options : Options) (source tokens : List Token) (tree : ParseTree)
    (hsource : source.map Token.kind = [.fromCmd, .sourceName, .pipe, .whereCmd])
    (h : parseExpressionTokens options 0 tokens = .ok tree) (hv : tree.isValid = true) :
    ∃ t, parseTokens ⟨options.maxDepth + 4, options.strategy⟩ (source ++ tokens) = .ok t ∧
      t.isValid = true ∧ t.tokens.toList = source ++ tree.tokens.toList ∧
      t.subtree t.root =
        whereQuery ((tree.subtree tree.root).shift 8 4) (tree.tokens.size + 3) ∧
      t.label 7 = .ofRule .whereCommand ∧ t.childNodes 7 = [tree.root + 8] ∧
      t.subtree (tree.root + 8) = (tree.subtree tree.root).shift 8 4 := by
  have hne : tokens ≠ [] := by
    rintro rfl
    cases h
  have heof : ∀ t ∈ source, t.isEof = false := by
    intro t ht
    have hk : t.kind ∈ source.map Token.kind := List.mem_map_of_mem ht
    rw [hsource] at hk
    rw [Bool.eq_false_iff, ne_eq, Token.isEof_iff]
    intro heof
    rw [heof] at hk
    exact absurd hk (by decide)
  have hw : (TokenStream.ofList (source ++ tokens)).coming = .fromCmd :: .sourceName :: .pipe ::
      .whereCmd :: (TokenStream.ofList tokens).coming := by
    rw [TokenStream.coming_ofList, TokenStream.coming_ofList, TokenStream.body_append heof,
      List.map_append, hsource]
    rfl
  obtain ⟨t, ht, hwhole, hvalid, htokens⟩ := parses_whereQuery hw h hv
  obtain ⟨_, hx, -⟩ := expression_reads h hv
  obtain ⟨l, span, e, cs, hroot⟩ := hx.exists_root
  rw [← hx.subtree_root] at hroot
  have htokens' : tree.tokens = (TokenStream.ofList tokens).tokens := by
    obtain ⟨-, -, -, -, htokens, -⟩ := expression_tree h
    exact htokens
  refine ⟨t, ht, hvalid, ?_, hwhole.subtree_root, ?_⟩
  · rw [htokens, htokens', toList_tokens_append heof hne]
  rw [hroot, Subtree.shift] at hwhole ⊢
  obtain ⟨_, hcommand⟩ := (hwhole.holds.of_mem_nodes (whereCommand_mem ..)).node_eq
  refine ⟨?_, ?_, hwhole.subtree_eq (condition_mem ..)⟩
  · rw [ParseTree.label, hcommand]
  · rw [ParseTree.childNodes, ParseTree.children, hcommand]
    rfl

/-- `a > 1 and not b or c` needs eight rules to stand alone, and twelve as a condition. -/
theorem expression_embeds_logical :
    let source : List Token := [Kind.fromCmd, .sourceName, .pipe, .whereCmd].map Token.ofKind
    let tokens : List Token := [Kind.name, .greater, .integer, .andWord, .notWord, .name, .orWord,
      .name].map Token.ofKind
    ∃ tree, (source.map Token.kind = [.fromCmd, .sourceName, .pipe, .whereCmd] ∧
        parseExpressionTokens ⟨8, .bail⟩ 0 tokens = .ok tree ∧ tree.isValid = true) ∧
      ∃ t, parseTokens ⟨12, .bail⟩ (source ++ tokens) = .ok t ∧ t.isValid = true ∧
        t.tokens.toList = source ++ tree.tokens.toList ∧
        t.subtree t.root =
          whereQuery ((tree.subtree tree.root).shift 8 4) (tree.tokens.size + 3) ∧
        t.label 7 = .ofRule .whereCommand ∧ t.childNodes 7 = [tree.root + 8] ∧
        t.subtree (tree.root + 8) = (tree.subtree tree.root).shift 8 4 := by
  intro source tokens
  obtain ⟨tree, h, hv⟩ : ∃ tree, parseExpressionTokens ⟨8, .bail⟩ 0 tokens = .ok tree ∧
      tree.isValid = true := by
    decide +kernel
  exact ⟨tree, ⟨rfl, h, hv⟩, expression_embeds ⟨8, .bail⟩ source tokens tree rfl h hv⟩

end PipeQuery.Parser

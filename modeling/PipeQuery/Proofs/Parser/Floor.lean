import PipeQuery.Proofs.Parser.Parallel
import PipeQuery.Proofs.Parser.Precedence
import PipeQuery.Proofs.Parser.Refusals

/-!
# Expressions over a floor

The floor of an expression bounds the operators at its root from below, and nothing else. Over a
floor above its operator the root ends in front of it, and the rest is left over. Operands, what
stands in parentheses and what stands behind `not` or a sign have floors of their own.

Two parses over different floors are followed side by side: where the one reads all tokens, and the
other can, their scripts differ in nothing but the floor, and they build the same tree.

## Main definitions

* `Alike`: scripts that differ in nothing but the floor

## Main results

* `Reads.alike`: two parses over different floors build the same
* `groups_iff_root`: over which floors a tree stands
* `floor_law`: the parses over a floor, by those over the lowest one
-/

namespace PipeQuery.Parser

open Token (Kind KindSet)
open Script

variable {options : Options} {strategy strategy' : Strategy} {limit limit' d f g k n k' n' : Nat}
  {c : Climb} {r : Rule} {q q' : Script} {s s' t : State} {x x' : Site} {p p' : Path}
  {u u' u'' : Draft} {v w : List Kind} {o : Outcome} {res : Result} {tokens : List Token}
  {tree : ParseTree}

/-! ## Side by side to the end -/

/-- A call that is read, made by both, where both come to the end of the rule if one does. -/
theorem Parallel.call (hp : Parallel k n k' n' s x p s' x' p')
    (hr : Reads (opening r f s.coming) (.fresh r) s.coming (.read u w))
    (hok : ∀ {d t res}, Executes strategy limit d (opening r f s.coming) (s.enter (.ofRule r) f)
        (.ok () t) →
      Executes strategy' limit' d (opening r f s.coming) (s'.enter (.ofRule r) f) res →
      ∃ t', res = .ok () t')
    (he : Executes strategy limit d (.call r f q) s (.ok () t))
    (he' : Executes strategy' limit' d (.call r f q') s' res) :
    ∃ t₁ x₁ t₁' x₁', Parallel k n k' n' t₁ x₁ p t₁' x₁' p' ∧ x₁.label = x.label ∧ t₁.coming = w ∧
      Executes strategy limit d q t₁ (.ok () t) ∧ Executes strategy' limit' d q' t₁' res := by
  cases he with
  | call _ hb hc hq =>
    obtain ⟨t₁, rfl, rfl⟩ := hp.left.body_ok hb hr hc
    cases he' with
    | call _ hb' hc' hq' =>
      rw [hp.coming_eq] at hb'
      obtain ⟨t₁', rfl⟩ := hok hb hb'
      cases hc'
      obtain ⟨_, _, hp₁, -, -, hcoming, -⟩ := hr.parallel rfl (hp.enter r f) rfl rfl hb hb'
      refine ⟨_, _, _, _, hp.leave hp₁, rfl, ?_, hq, hq'⟩
      rw [coming_leave, hcoming]
    | callStop _ hb' hc' =>
      -- The other parse may open as many rules, so it is not stopped.
      rw [hp.coming_eq] at hb'
      obtain ⟨t₁', rfl⟩ := hok hb hb'
      cases hc'

/-- Where one of two parses side by side comes to the end of a script, so does the other. -/
theorem Reads.parallel_ok (h : Reads q u w o) (ho : o = .read u' v)
    (hp : Parallel k n k' n' s x p s' x' p') (hlabel : x.label = u.label) (hw : s.coming = w)
    (he : Executes strategy limit d q s (.ok () t))
    (he' : Executes strategy' limit' d q s' res) : ∃ t', res = .ok () t' := by
  induction h generalizing s x p s' x' p' t d res u' v with
  | done =>
    cases he'
    exact ⟨s', rfl⟩
  | step ha _ ih =>
    rw [← hw] at ha
    obtain ⟨_, _, _, _, hrun, hrun', hp₁, hlabel₁, -, hcoming, -⟩ :=
      hp.step strategy strategy' hlabel ha
    exact ih ho hp₁ hlabel₁ hcoming (he.step_inv hrun) (he'.step_inv hrun')
  | stuck => cases ho
  | @call r f _ _ _ _ _ _ hr _ ihr ihp =>
    subst hw
    obtain ⟨_, _, _, _, hp₁, hlabel₁, hcoming, hq, hq'⟩ :=
      hp.call hr (ihr rfl (hp.enter r f) rfl rfl) he he'
    exact ihp ho hp₁ (hlabel₁.trans hlabel) hcoming hq hq'
  | callStuck => cases ho
  | go _ ih =>
    subst hw
    cases he with
    | go hq =>
      cases he' with
      | go hq' =>
        rw [hp.coming_eq] at hq'
        exact ih ho hp hlabel rfl hq hq'
      | idle hrec =>
        rw [hp.right.recovering_eq] at hrec
        cases hrec
    | idle hrec =>
      rw [hp.left.recovering_eq] at hrec
      cases hrec

/-! ## Over one floor and another -/

/-- Two scripts that differ in nothing but the floor of the operators that they go on with. -/
inductive Alike (f g : Nat) : Script → Script → Prop where
  | done : Alike f g .done .done
  | step {m : Move} {q q' : Script} (h : Alike f g q q') : Alike f g (.step m q) (.step m q')
  | call {r : Rule} {e : Nat} {q q' : Script} (h : Alike f g q q') :
    Alike f g (.call r e q) (.call r e q')
  | go (c : Climb) : Alike f g (.go (.operators c f)) (.go (.operators c g))

theorem unchecked_alike : Alike f g (unchecked f w) (unchecked g w) := by
  rw [unchecked, unchecked]
  split
  · exact .step (.step (.call (.go .logical)))
  · split
    · exact .step (.call (.go .logical))
    · exact .step .done

/-- Where all tokens are read, no operator stands below the floor. -/
theorem le_of_reads_operators (h : Reads ((Phase.operators c f).script w) u w (.read u' []))
    {e : Nat} (he : c.precedence (next w) = some e) : f ≤ e := by
  refine Nat.le_of_not_lt fun hlt => ?_
  simp only [Phase.script, he, hlt, if_true] at h
  cases h
  cases c <;> cases he

/-- Where no operator stands below either floor, the scripts behind an operand are alike. -/
theorem operators_alike (hf : ∀ e, c.precedence (next w) = some e → f ≤ e)
    (hg : ∀ e, c.precedence (next w) = some e → g ≤ e) :
    Alike f g ((Phase.operators c f).script w) ((Phase.operators c g).script w) := by
  simp only [Phase.script]
  cases he : c.precedence (next w) with
  | none => exact .done
  | some e =>
    simp only [Nat.not_lt.mpr (hf e he), Nat.not_lt.mpr (hg e he), if_false]
    exact .step (.step (.call (.go c)))

/-- **Where all tokens are read over two floors**, the two parses build the same. -/
theorem Reads.alike (h : Reads q u w o) (ho : o = .read u' []) (hq : Alike f g q q')
    (h' : Reads q' u w (.read u'' [])) (hp : Parallel k n k' n' s x p s' x' p')
    (hlabel : x.label = u.label) (hw : s.coming = w)
    (he : Executes strategy limit d q s (.ok () t))
    (he' : Executes strategy' limit' d q' s' res) :
    ∃ t' y y', res = .ok () t' ∧ Parallel k n k' n' t y p t' y' p' ∧ t.coming = [] := by
  induction h generalizing s x p s' x' p' t d res q' u' u'' with
  | done =>
    cases hq
    cases ho
    cases he
    cases he'
    exact ⟨s', x, x', rfl, hp, hw⟩
  | step ha _ ih =>
    cases hq with
    | step hq =>
      cases h' with
      | step ha' h' =>
        rw [ha] at ha'
        cases ha'
        rw [← hw] at ha
        obtain ⟨_, _, _, _, hrun, hrun', hp₁, hlabel₁, -, hcoming, -⟩ :=
          hp.step strategy strategy' hlabel ha
        exact ih ho hq h' hp₁ hlabel₁ hcoming (he.step_inv hrun) (he'.step_inv hrun')
  | stuck => cases ho
  | @call r e _ _ _ _ _ _ hr _ _ ihp =>
    subst hw
    cases hq with
    | call hq =>
      cases h' with
      | call hr' h' =>
        cases hr.unique hr'
        obtain ⟨_, _, _, _, hp₁, hlabel₁, hcoming, he, he'⟩ :=
          hp.call hr (hr.parallel_ok rfl (hp.enter r e) rfl rfl) he he'
        exact ihp ho hq h' hp₁ (hlabel₁.trans hlabel) hcoming he he'
  | callStuck => cases ho
  | go hread ih =>
    subst hw
    cases hq with
    | go c =>
      cases h' with
      | go h' =>
        subst ho
        -- Both read on to the end, so neither leaves the operator that comes next.
        have hscripts := operators_alike (fun _ => le_of_reads_operators hread)
          fun _ => le_of_reads_operators h'
        cases he with
        | go he =>
          cases he' with
          | go he' =>
            rw [hp.coming_eq] at he'
            exact ih rfl hscripts h' hp hlabel rfl he he'

/-! ## The root of an expression -/

/-- The root of a tree, as an alternative over the floor of the whole. -/
theorem exists_root_alternative {x : Subtree} (h : tree.IsWhole x)
    (hx : Groups r f (x.shape tree.tokens) w) :
    ∃ body us, Alternative f (tree.label tree.root) body ∧
      tree.Follows body (tree.children tree.root) ∧ tree.rule tree.root = r ∧
      x.shape tree.tokens = .node (tree.label tree.root) us ∧ Stratified body us w := by
  obtain ⟨l, body, us, ha, hr, hshape, hrow⟩ := groups_iff.mp hx
  obtain ⟨l', span, e, children, rfl⟩ := h.exists_root
  obtain ⟨rfl, rfl⟩ := Shape.node.inj hshape
  obtain ⟨_, hnode⟩ := h.holds.node_eq
  have hlabel : tree.label tree.root = l' := by rw [ParseTree.label, hnode]
  have hchildren : tree.children tree.root = children.map Subtree.slot := by
    rw [ParseTree.children, hnode]
  rw [ParseTree.rule, hlabel, hchildren]
  exact ⟨body, _, ha, hrow.follows rfl fun c hc => h.holds.of_mem_children hc, hr, rfl, hrow⟩

/-- The operator of a node with a binary alternative. -/
theorem precedence?_of_binary {id : NodeId} {a : Kind} {e : Nat} (hl : tree.label id = c.wrapper)
    (ha : c.precedence a = some e)
    (h : tree.Follows [⟨.rule c.rule, e⟩, ⟨.token a, 0⟩, ⟨.rule c.rule, e + 1⟩]
      (tree.children id)) : tree.precedence? c id = some e := by
  obtain ⟨l, _, hchildren, -, htail⟩ := h.cons_rule_inv
  obtain ⟨i, _, rfl, rfl, -⟩ := htail.cons_token_inv
  have hfirst : tree.firstToken? id = some (tree.token i) := by
    rw [ParseTree.firstToken?, ParseTree.directTokens, hchildren]
    rfl
  rw [ParseTree.precedence?, if_pos hl, hfirst, Option.bind_some, ha]

/-- **An expression stands over a floor** if its root has no operator below it. -/
theorem groups_iff_root {x : Subtree} (h : tree.IsWhole x)
    (hx : Groups .booleanExpression 0 (x.shape tree.tokens) w) :
    Groups .booleanExpression f (x.shape tree.tokens) w ↔
      ∀ e, tree.precedence? .logical tree.root = some e → f ≤ e := by
  constructor
  · intro hx e he
    obtain ⟨body, us, ha, hbody, hr, -⟩ := exists_root_alternative h hx
    exact ParseTree.Stands.le_of_precedence? ⟨hr, body, ha, hbody⟩ he
  · intro hover
    obtain ⟨body, us, ha, hbody, hr, hshape, hrow⟩ := exists_root_alternative h hx
    refine groups_iff.mpr ⟨_, body, us, ?_, hr, hshape, hrow⟩
    rcases ha.forall_or_binary with ha | ⟨c, a, e, he, -, hl, rfl⟩
    · exact ha f
    · obtain rfl : c = .logical := by
        refine Climb.rule_injective ?_
        rw [← c.rule_wrapper, ← hl]
        exact hr
      rw [hl]
      exact .binary .logical he (hover e (precedence?_of_binary hl he hbody))

/-! ## The trees over two floors -/

/-- What is grouped over a floor that expressions accept is read over it. -/
theorem reads_of_groups {shape : Shape} (hf : f ≤ Precedence.booleanMax)
    (h : Groups .booleanExpression f shape w) :
    ∃ n, Reads (opening .booleanExpression f w) (.fresh .booleanExpression) w (.read n []) := by
  have hk : Closes .booleanExpression f (next []) :=
    Climb.closes (c := .logical) hf (by decide) fun e he => by cases he
  obtain ⟨n, -, hn⟩ := Groups.reads h hk
  rw [List.append_nil] at hn
  exact ⟨n, hn⟩

/-- A floor over which an expression is read is accepted. -/
theorem unchecked_reads {n : Draft}
    (h : Reads (opening .booleanExpression f w) (.fresh .booleanExpression) w (.read n v)) :
    f ≤ Precedence.booleanMax ∧
      Reads (unchecked f w) (.fresh .booleanExpression) w (.read n v) := by
  cases h with
  | step ha h =>
    rw [Move.apply] at ha
    split at ha
    · cases ha
      exact ⟨‹_›, h⟩
    · cases ha

/-- A valid tree has noted no errors. -/
theorem reported_eq_empty (entry : Entry) (h : entry.parse options tokens = .ok tree)
    (hv : tree.isValid = true) : tree.reported = #[] := by
  obtain ⟨-, hs⟩ := parse_yields h
  obtain ⟨x, hx, -⟩ := parse_leafIndices entry h
  refine Array.eq_empty_iff_forall_not_mem.mpr fun id hid => ?_
  rw [hs.reported_eq, hs.reports.mem_iff, ← hs.error_eq, ParseTree.node] at hid
  cases hn : tree.nodes[id]? with
  | none =>
    rw [hn] at hid
    cases hid
  | some n =>
    rw [hn] at hid
    rw [hx.isValid_eq_false hn hid] at hv
    cases hv

/-- A valid tree of an expression has been read. -/
theorem expression_reads (h : parseExpressionTokens options f tokens = .ok tree)
    (hv : tree.isValid = true) :
    ∃ x, tree.IsWhole x ∧ ∃ n, Reads
        (opening .booleanExpression f (TokenStream.ofList tokens).coming)
        (.fresh .booleanExpression) (TokenStream.ofList tokens).coming (.read n []) ∧
      Groups .booleanExpression f (x.shape tree.tokens) (TokenStream.ofList tokens).coming := by
  have hverdict := expression_verdict options f (isEmpty_eq_false_of_run h fun he => by cases he)
  rw [h] at hverdict
  cases hverdict with
  | valid hx _ hr hs =>
    obtain ⟨v, hw, hg, -⟩ := hr.groups (by decide)
    rw [List.append_nil] at hw
    refine ⟨_, hx, _, hr, ?_⟩
    rw [hs, hw]
    exact hg
  | faulty _ _ hvalid =>
    rw [hvalid _ rfl] at hv
    cases hv

/-- An expression over a floor that is accepted, behind the check of the floor. -/
theorem expression_calls (hf : f ≤ Precedence.booleanMax) (hd : options.maxDepth = d + 1)
    (tokens : List Token) :
    ∃ res, Executes options.strategy options.maxDepth d
        (unchecked f (TokenStream.ofList tokens).coming) (openedExpression tokens f) res ∧
      parseRule options options.maxDepth .booleanExpression f (.start (.ofList tokens)) =
        closing res := by
  have hcall := standalone_calls options f tokens
  generalize parseRule options options.maxDepth .booleanExpression f (.start (.ofList tokens)) =
    res at hcall
  rw [hd] at hcall ⊢
  obtain ⟨res, hb, rfl⟩ := hcall
  have hcheck : (Move.check f Precedence.booleanMax).run options.strategy
      (openedExpression tokens f) = .ok () (openedExpression tokens f) := by
    rw [Move.run, checkFloor, if_pos hf]
    rfl
  exact ⟨res, Executes.step_inv hb hcheck, rfl⟩

/-- A parse that has a tree is not stopped on its way. -/
theorem exists_ok_of_tree (h : parseExpressionTokens options f tokens = .ok tree) :
    (TokenStream.ofList tokens).isEmpty = false ∧ (∃ d, options.maxDepth = d + 1) ∧
      ∃ t, parseRule options options.maxDepth .booleanExpression f (.start (.ofList tokens)) =
        .ok () t := by
  obtain ⟨u, s, hres, -, -⟩ := expression_ends h
  refine ⟨isEmpty_eq_false_of_run h fun he => (by cases he), ?_, u, hres⟩
  have hcall := standalone_calls options f tokens
  rw [hres] at hcall
  cases hd : options.maxDepth with
  | zero =>
    rw [hd] at hcall
    cases hcall
  | succ d => exact ⟨d, rfl⟩

/-- The tree of an expression that has been read up to the end of the input. -/
theorem expression_finish (hne : (TokenStream.ofList tokens).isEmpty = false)
    (h : parseRule options options.maxDepth .booleanExpression f (.start (.ofList tokens)) =
      .ok () t.leave) (hc : OnCourse t x []) (hnil : t.coming = []) :
    ∃ tree, parseExpressionTokens options f tokens = .ok tree ∧
      tree.IsWhole (x.close t.cursor).subtree ∧ tree.tokens = t.stream.tokens := by
  have hk : t.leave.kindAt 1 = .endOfInput := by
    rw [kindAt_leave, kindAt_one hc.proper, hnil, next_nil]
  obtain ⟨tree, htree, hwhole, htokens⟩ := finish_of_builds hc.tracks.leave_root
    ((failure_leave _).trans hc.failure_eq)
  rw [stream_leave] at htokens
  refine ⟨tree, ?_, hwhole, htokens⟩
  rw [parseExpressionTokens, run_eq, hne, if_neg Bool.false_ne_true, standalone_eq, h]
  show finish (Result.state (trailing options.strategy t.leave)) = _
  rw [trailing, if_neg (not_not_intro hk)]
  exact htree

/-- **An expression that is read over two floors** has one tree over both, if it has one over the
first. -/
theorem expression_alike {n n' : Draft}
    (hf : Reads (opening .booleanExpression f (TokenStream.ofList tokens).coming)
      (.fresh .booleanExpression) (TokenStream.ofList tokens).coming (.read n []))
    (hg : Reads (opening .booleanExpression g (TokenStream.ofList tokens).coming)
      (.fresh .booleanExpression) (TokenStream.ofList tokens).coming (.read n' []))
    (h : parseExpressionTokens options f tokens = .ok tree) (hv : tree.isValid = true) :
    parseExpressionTokens options g tokens = .ok tree := by
  obtain ⟨hne, ⟨d, hd⟩, u, hu⟩ := exists_ok_of_tree h
  obtain ⟨hfmax, hf⟩ := unchecked_reads hf
  obtain ⟨hgmax, hg⟩ := unchecked_reads hg
  obtain ⟨res, he, hres⟩ := expression_calls hfmax hd tokens
  obtain ⟨res', he', hres'⟩ := expression_calls hgmax hd tokens
  have hstart :
      Parallel 0 0 0 0 (openedExpression tokens f) _ [] (openedExpression tokens g) _ [] :=
    ⟨openedExpression_onCourse tokens f, openedExpression_onCourse tokens g, rfl, rfl, rfl, rfl⟩
  -- The one comes to its end, and so the other does.
  obtain ⟨t, rfl⟩ : ∃ t, res = .ok () t := by
    cases he.simulated (openedExpression_onCourse tokens f) with
    | read => exact ⟨_, rfl⟩
    | stuck hr => cases hf.unique hr
    | deep =>
      rw [hu] at hres
      cases hres
  obtain ⟨t', y, y', rfl, hp, hnil⟩ := hf.alike rfl unchecked_alike hg hstart rfl rfl he he'
  obtain ⟨_, htree, hx, htokens⟩ := expression_finish hne hres hp.left hnil
  cases h.symm.trans htree
  obtain ⟨tree', htree', hx', htokens'⟩ :=
    expression_finish hne hres' hp.right (hp.coming_eq.trans hnil)
  have hsubtree : (y'.close t'.cursor).subtree = (y.close t.cursor).subtree := by
    refine Site.subtree_eq_of_shift ?_
    rw [Site.shift_close, Site.shift_close, hp.site_eq, hp.cursor_eq]
  rw [hsubtree] at hx'
  have hv' : tree'.isValid = true := hx'.isValid_iff.mpr (hx.isValid_iff.mp hv)
  have hadv : t.stream.tokens = (TokenStream.ofList tokens).tokens :=
    (he.evolves (openedExpression_onCourse tokens f).proper).advances.tokens_eq
  have hadv' : t'.stream.tokens = (TokenStream.ofList tokens).tokens :=
    (he'.evolves (openedExpression_onCourse tokens g).proper).advances.tokens_eq
  rw [htree', hx.tree_eq hx' (by rw [htokens, htokens', hadv, hadv'])]
  rw [reported_eq_empty (.expression f) h hv, reported_eq_empty (.expression g) htree' hv']

/-- Expressions over a floor are those over the lowest one whose root has no operator below the
floor, and their trees are the same. -/
theorem expression_valid_iff (options : Options) (floor : Nat) (tokens : List Token)
    (tree : ParseTree) :
    (parseExpressionTokens options floor tokens = .ok tree ∧ tree.isValid = true) ↔
      floor ≤ Precedence.booleanMax ∧
        (parseExpressionTokens options 0 tokens = .ok tree ∧ tree.isValid = true) ∧
        ∀ e, tree.precedence? .logical tree.root = some e → floor ≤ e := by
  constructor
  · rintro ⟨h, hv⟩
    obtain ⟨x, hx, n, hn, hg⟩ := expression_reads h hv
    obtain ⟨m, hm⟩ := reads_of_groups (Nat.zero_le _) (hg.mono (Nat.zero_le floor))
    exact ⟨(unchecked_reads hn).1, ⟨expression_alike hn hm h hv, hv⟩,
      (groups_iff_root hx (hg.mono (Nat.zero_le floor))).mp hg⟩
  · rintro ⟨hmax, ⟨h, hv⟩, hover⟩
    obtain ⟨x, hx, n, hn, hg⟩ := expression_reads h hv
    obtain ⟨m, hm⟩ := reads_of_groups hmax ((groups_iff_root hx hg).mpr hover)
    exact ⟨expression_alike hn hm h hv, hv⟩

/-! ## The floors that are passed on -/

/-- In a statement, rules are called over floors that they accept. -/
theorem floor_le_of_statement {d : Nat} {p : Script} {u : State}
    (h : Reaches options d (.only .singleStatement) s (.call r f p) u) : f ≤ r.highestFloor := by
  have hquery {d : Nat} {q : Script} {s : State}
      (h : Reaches options d (.only .query) s q u) : q.Orderly :=
    h.orderly orderly_only
  cases h with
  | here => exact Nat.zero_le _
  | behind _ h => cases h
  | into h =>
    cases h with
    | here => exact Nat.zero_le _
    | into h => exact (hquery (.into h)).1.2
    | behind _ h =>
      cases h with
      | step _ h => cases h

/-- So they are in an expression, whatever its own floor is. -/
theorem floor_le_of_expression {d : Nat} {p : Script} {u : State}
    (h : Reaches options d (opening .booleanExpression g w) s (.call r f p) u) :
    f ≤ r.highestFloor := by
  rw [opening_boolean] at h
  cases h with
  | step _ h => exact (h.orderly unchecked_orderly).1.2

/-! ## The law of floors -/

/-- **The law of floors.** An expression has a valid tree over a floor if and only if the floor is
accepted, the expression has this tree over the lowest floor, and the root has no logical operator
below the floor. A floor is refused if and only if it is too high and there is something to parse;
this is then the first error, and the error of the root. In a statement no floor is refused: rules
are called over floors that they accept. -/
theorem floor_law (options : Options) (floor : Nat) (tokens : List Token) :
    (∀ tree, (parseExpressionTokens options floor tokens = .ok tree ∧ tree.isValid = true) ↔
      floor ≤ Precedence.booleanMax ∧
        (parseExpressionTokens options 0 tokens = .ok tree ∧ tree.isValid = true) ∧
        ¬ ∃ e, tree.precedence? .logical tree.root = some e ∧ e < floor) ∧
    ((∃ e, (Entry.expression floor).Raises options tokens e ∧ e.Refuses) ↔
      Precedence.booleanMax < floor ∧ (TokenStream.ofList tokens).isEmpty = false ∧
        1 ≤ options.maxDepth) ∧
    (∀ e, (Entry.expression floor).Raises options tokens e → e.Refuses →
      ((Entry.expression floor).raised options tokens).head? = some e ∧
      (∃ root,
        (endState ((Entry.expression floor).run options) (.start (.ofList tokens))).arena.root =
          some root ∧
        (endState ((Entry.expression floor).run options)
          (.start (.ofList tokens))).arena.errorAt root = some e) ∧
      (∀ tree, parseExpressionTokens options floor tokens = .ok tree →
        (tree.node tree.root).error = some e ∧ tree.diagnostics.head? = some e) ∧
      (options.strategy = .bail →
        parseExpressionTokens options floor tokens = .error (.bailed e))) ∧
    (∀ e, Entry.statement.Raises options tokens e → ¬ e.Refuses) ∧
    (∀ r f p u, Reaches options options.maxDepth (.only .singleStatement)
      (.start (.ofList tokens)) (.call r f p) u → f ≤ r.highestFloor) ∧
    ∀ d r f p u, Reaches options d
      (opening .booleanExpression floor (openedExpression tokens floor).coming)
      (openedExpression tokens floor) (.call r f p) u → f ≤ r.highestFloor := by
  have hhigh {e : SyntaxError} (he : (Entry.expression floor).Raises options tokens e)
      (href : e.Refuses) : Precedence.booleanMax < floor ∧ 1 ≤ options.maxDepth := by
    by_contra hno
    refine (expression_accepts_floors tokens ?_).not_refuses (.expression floor) he.2 href
    omega
  refine ⟨fun tree => ?_, ⟨?_, ?_⟩, ?_, ?_, fun r f p u h => floor_le_of_statement h,
    fun d r f p u h => floor_le_of_expression h⟩
  · rw [expression_valid_iff]
    simp only [not_exists, not_and, Nat.not_lt]
  · rintro ⟨e, he, href⟩
    obtain ⟨hfloor, hdepth⟩ := hhigh he href
    exact ⟨hfloor, he.1, hdepth⟩
  · rintro ⟨hfloor, hne, hdepth⟩
    obtain ⟨⟨rest, hraised, -⟩, -⟩ := expression_refuses hfloor hdepth hne
    refine ⟨refusal tokens floor, ⟨hne, ?_⟩, refusal_refuses tokens floor⟩
    rw [hraised]
    exact List.mem_cons_self
  · intro e he href
    obtain ⟨hfloor, hdepth⟩ := hhigh he href
    obtain ⟨⟨rest, hraised, hrest⟩, hroot, htree, hbail⟩ :=
      expression_refuses hfloor hdepth he.1
    -- One error refuses the floor, and no other error refuses any.
    obtain rfl : e = refusal tokens floor := by
      have hmem := he.2
      rw [hraised] at hmem
      exact (List.mem_cons.mp hmem).resolve_right fun hmem => hrest e hmem href
    rw [hraised]
    exact ⟨rfl, hroot, htree, hbail⟩
  · exact fun e he => (statement_accepts_floors options tokens).not_refuses .statement he.2

/-- The operator of `a or b` is accepted by the floor 1 and not by the floor 2, and the floor 5 is
refused. Taken for a query, the three tokens raise an error that refuses no floor. -/
theorem floor_law_or :
    let options : Options := ⟨20, .recover⟩
    let tokens := [Kind.name, .orWord, .name].map Token.ofKind
    (∃ tree, parseExpressionTokens options 1 tokens = .ok tree ∧ tree.isValid = true ∧
      ¬ (parseExpressionTokens options 2 tokens = .ok tree ∧ tree.isValid = true)) ∧
    (∃ e, (Entry.expression 5).Raises options tokens e ∧ e.Refuses ∧
      ((Entry.expression 5).raised options tokens).head? = some e ∧
      ∃ tree, parseExpressionTokens options 5 tokens = .ok tree ∧
        (tree.node tree.root).error = some e) ∧
    (∃ e, Entry.statement.Raises options tokens e ∧ ¬ e.Refuses) ∧
    Reaches options options.maxDepth (.only .singleStatement) (.start (.ofList tokens))
      (.only .singleStatement) (.start (.ofList tokens)) ∧
    0 ≤ Rule.highestFloor .singleStatement := by
  intro options tokens
  refine ⟨?_, ?_, ?_, .here, (floor_law options 0 tokens).2.2.2.2.1 _ _ _ _ .here⟩
  · obtain ⟨tree, h, hv, hroot⟩ : ∃ tree, parseExpressionTokens options 0 tokens = .ok tree ∧
        tree.isValid = true ∧ tree.precedence? .logical tree.root = some 1 := by
      decide +kernel
    obtain ⟨hover, hv'⟩ := ((floor_law options 1 tokens).1 tree).mpr
      ⟨by decide, ⟨h, hv⟩, fun ⟨e, he, hlt⟩ => by
        rw [hroot] at he
        cases he
        exact absurd hlt (by decide)⟩
    refine ⟨tree, hover, hv', fun hbelow => ?_⟩
    exact (((floor_law options 2 tokens).1 tree).mp hbelow).2.2 ⟨1, hroot, by decide⟩
  · obtain ⟨-, hraises, hrefuses, -⟩ := floor_law options 5 tokens
    obtain ⟨e, he, href⟩ := hraises.mpr ⟨by decide, by decide, by decide⟩
    obtain ⟨hfirst, -, htree, -⟩ := hrefuses e he href
    obtain ⟨tree, h, -⟩ : ∃ tree, parseExpressionTokens options 5 tokens = .ok tree ∧ True := by
      decide +kernel
    exact ⟨e, he, href, hfirst, tree, h, (htree tree h).1⟩
  · obtain ⟨e, he⟩ : ∃ e, e ∈ Entry.statement.raised options tokens :=
      List.exists_mem_of_ne_nil _ (by decide +kernel)
    have hraises : Entry.statement.Raises options tokens e := ⟨by decide, he⟩
    exact ⟨e, hraises, (floor_law options 0 tokens).2.2.2.1 e hraises⟩

end PipeQuery.Parser

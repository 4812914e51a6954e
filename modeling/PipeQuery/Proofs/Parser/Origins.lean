import PipeQuery.Proofs.Parser.QueryNodes

/-!
# Where nodes come from

A rule without alternatives gives its node no other label and does not wrap it. So a node of such a
rule is what a parse of the rule has left, and what all these parses leave, whatever errors they
meet, all nodes of the rule have in every tree. The same goes for several such rules at once.

## Main definitions

* `Rule.Single`: a rule without alternatives
* `Subtree.Each`, `Site.Each`: what all nodes of some rules have in a subtree, and below a node
* `Makes`: what all parses of some rules leave

## Main results

* `opening_alternatives`, `Phase.script_alternatives`: nodes are labelled with alternatives alone
* `Executes.each`: what parses of a rule leave, its nodes have wherever a script comes to
* `parse_each`: so they have it in every tree
-/

namespace PipeQuery

open Token (Kind KindSet)

/-- A rule without alternatives. -/
def Rule.Single (r : Rule) : Prop := ∀ l : Label, l.isAlternative = true → l.rule ≠ r

theorem rule_not_mem {rs : List Rule} {l : Label} (hrs : ∀ r ∈ rs, r.Single)
    (hl : l.isAlternative = true) : l.rule ∉ rs := fun h => hrs _ h l hl rfl

/-- `P` holds of all nodes of the rules in a subtree. -/
def Subtree.Each (rs : List Rule) (P : Site → Prop) (c : Subtree) : Prop :=
  ∀ y : Site, y.subtree ∈ c.nodes → y.label.rule ∈ rs → P y

theorem Subtree.exists_of_mem_nodesOf {y : Subtree} {xs : List Subtree} (h : y ∈ nodesOf xs) :
    ∃ c ∈ xs, y ∈ c.nodes := by
  induction xs with
  | nil => cases h
  | cons c xs ih =>
    rw [nodesOf, List.mem_append] at h
    rcases h with h | h
    · exact ⟨c, List.mem_cons_self, h⟩
    · obtain ⟨c', hc, hy⟩ := ih h
      exact ⟨c', List.mem_cons_of_mem _ hc, hy⟩

namespace Site

variable {rs : List Rule} {P : Site → Prop} {x y : Site} {c : Subtree}

/-- Leaves and errors change nothing of the nodes below a node. -/
theorem alike_append (x : Site) (e : Option SyntaxError) (is js : List Nat) :
    x.Alike { x with
      error := e, children := x.children ++ (is.map .discarded ++ js.map .token) } := by
  have hleaf (xs : List Nat) (leaf : Nat → Subtree) (hfalse : ∀ i, (leaf i).isNode = false) :
      (xs.map leaf).filter Subtree.isNode = [] := by
    simp [hfalse]
  refine ⟨rfl, ?_⟩
  rw [parts, List.filter_append, List.filter_append, hleaf is _ fun _ => rfl,
    hleaf js _ fun _ => rfl]
  exact List.append_nil _

/-- `P` holds of all nodes of the rules below a node. -/
def Each (rs : List Rule) (P : Site → Prop) (x : Site) : Prop := ∀ c ∈ x.parts, c.Each rs P

theorem Each.alike (h : x.Each rs P) (hxy : x.Alike y) : y.Each rs P := by
  rw [Each, hxy.parts_eq]
  exact h

theorem Each.add (h : x.Each rs P) (hc : c.Each rs P) : (x.add c).Each rs P := by
  cases hnode : c.isNode with
  | false => exact h.alike (alike_add hnode x)
  | true =>
    rw [Each, parts_add hnode, List.forall_mem_append, List.forall_mem_singleton]
    exact ⟨h, hc⟩

/-- What holds below a node holds in its subtree, if it holds of the node itself. -/
theorem Each.subtree (h : x.Each rs P) (hx : x.label.rule ∈ rs → P x) : x.subtree.Each rs P := by
  intro y hy hr
  rcases List.mem_cons.mp hy with heq | hy
  · cases x
    cases y
    cases heq
    exact hx hr
  · obtain ⟨c, hc, hy⟩ := Subtree.exists_of_mem_nodesOf hy
    refine h c (List.mem_filter.mpr ⟨hc, ?_⟩) y hy hr
    cases c with
    | node => rfl
    | token | discarded => cases hy

end Site

namespace Parser

open Script

variable {strategy : Strategy} {limit d f : Nat} {rs : List Rule} {m : Move} {q : Script} {s s' t : State}
  {res : Result} {x y : Site} {p : Path} {w : List Kind} {P : Site → Prop} {ts : Array Token}
  {options : Options} {tokens : List Token} {tree : ParseTree}

/-! ## Labels -/

/-- A step that labels a node, or a new one around it, with an alternative. -/
def Move.Alternative : Move → Prop
  | .relabel l | .wrap l => l.isAlternative = true
  | _ => True

/-- A script that labels nodes with alternatives alone. -/
def Script.Alternatives : Script → Prop
  | done => True
  | step m q => m.Alternative ∧ q.Alternatives
  | call _ _ q => q.Alternatives
  | go _ => True

theorem choice_alternatives {first : Kind → Option Rule} {expected : KindSet} :
    (choice first expected w).Alternatives := by
  rw [choice]
  split
  · trivial
  · exact ⟨trivial, trivial⟩

/-- **The scripts of all phases label nodes with alternatives.** -/
theorem Phase.script_alternatives (φ : Phase) : (φ.script w).Alternatives := by
  cases φ with
  | more s =>
    rw [script]
    split
    · exact ⟨trivial, trivial⟩
    · cases s <;> trivial
  | operators c =>
    have hwrapper : c.wrapper.isAlternative = true := by cases c <;> rfl
    simp only [script]
    repeat' split
    · trivial
    · trivial
    · exact ⟨hwrapper, trivial, trivial⟩
  | _ =>
    simp only [script]
    repeat' split
    all_goals simp [token, label, only, Script.Alternatives, Move.Alternative, Label.isAlternative]

/-- **The scripts of all rules label nodes with alternatives.** -/
theorem opening_alternatives (r : Rule) (f : Nat) (w : List Kind) :
    (opening r f w).Alternatives := by
  cases r with
  | sourceCommand | processingCommand => exact choice_alternatives
  | _ =>
    simp only [opening, unchecked, uncheckedOperator]
    repeat' split
    all_goals
      simp [token, label, only, leave, Script.Alternatives, Move.Alternative, Label.isAlternative]

/-! ## Where a parse goes on -/

/-- A part of a parse that does not end it, at the state where the parse goes on: it has come to its
end there, or it has met an error. -/
def Result.OnTo (res : Result) (t : State) : Prop := res = .ok () t ∨ res = .error .resync t

theorem onTo_ok : Result.OnTo (.ok () s) t ↔ t = s := by
  simp [Result.OnTo, eq_comm]

theorem not_onTo_halt : ¬ Result.OnTo (.error .halt s) t := by
  simp [Result.OnTo]

/-- Tokens that are dropped are children of the node that is open. -/
theorem Tracks.exists_drops (h : Tracks s (x :: p)) (stop : KindSet) (n : Nat) :
    ∃ is : List Nat, Tracks (s.discardUntil s.node stop n)
      ({ x with children := x.children ++ is.map .discarded } :: p) := by
  refine (discardUntil_induction n (P := fun t => t.node = s.node ∧ ∃ is : List Nat,
    Tracks t ({ x with children := x.children ++ is.map .discarded } :: p)) ⟨rfl, [], ?_⟩ ?_).2
  · simpa using h
  · rintro t ⟨hnode, is, ht⟩ - -
    have hdiscard := ht.discard
    rw [hnode] at hdiscard
    refine ⟨hnode, is ++ [t.cursor], ?_⟩
    simpa [Path.add, Site.add] using hdiscard

/-- A rule that is left has come to its end, or has dropped tokens behind the last error. -/
theorem closing_ok (h : closing res = .ok () s') :
    ∃ t v, res.OnTo t ∧ s' = v.leave ∧ ∀ {x : Site} {p : Path}, Tracks t (x :: p) →
      ∃ is : List Nat, Tracks v ({ x with children := x.children ++ is.map .discarded } :: p) := by
  cases res with
  | ok _ t =>
    cases h
    exact ⟨t, t, .inl rfl, rfl, fun ht => ⟨[], by simpa using ht⟩⟩
  | error a t =>
    cases a with
    | halt => cases h
    | resync =>
      rw [closing] at h
      split at h
      · rename_i v hv
        cases h
        refine ⟨t, v, .inr rfl, rfl, fun {x p} ht => ?_⟩
        have hs : Tracks { t with recovering := true } (x :: p) := ⟨ht.builds, ht.frames_eq⟩
        rw [recover_ok_eq hv]
        exact hs.exists_drops t.resyncSet t.stream.remaining
      · cases h

/-- A rule that is called goes on from where its body is left. -/
theorem Executes.call_body {r : Rule} (h : Executes strategy limit d (.call r f q) s res)
    (hon : res.OnTo t) : ∃ d' res' u, d' < d ∧
      Executes strategy limit d' (opening r f s.coming) (s.enter (.ofRule r) f) res' ∧
        closing res' = .ok () u ∧ Executes strategy limit d q u res := by
  cases h with
  | call _ hb hc hq => exact ⟨_, _, _, Nat.lt_succ_self _, hb, hc, hq⟩
  | callStop _ _ hc =>
    rcases hon with hon | hon
    · cases hon
    · cases hon
      exact absurd hc closing_ne_resync
  | deep => exact absurd hon not_onTo_halt

/-! ## Steps -/

/-- An error that is met stays at the node. -/
theorem Tracks.fail_onTo {cause : SyntaxError.Cause} {expected : KindSet} (h : Tracks s (x :: p))
    (hf : Result.OnTo (fail strategy cause expected s) t) :
    ∃ e, Tracks t ({ x with error := e } :: p) := by
  rcases hf with hf | hf
  · exact absurd hf fail_ne_ok
  · exact reportHere_tracks (fail_resync hf) h

/-- **Matching a token** adds it to the node, behind a stray one that is dropped; if there is none
to be matched, the node stays as it is, but for an error. -/
theorem Tracks.take_onTo {set : KindSet} (h : Tracks s (x :: p))
    (ht : Result.OnTo (expectOneOf strategy set s) t) :
    ∃ e, ∃ is js : List Nat, Tracks t
      ({ x with
        error := e, children := x.children ++ (is.map .discarded ++ js.map .token) } :: p) := by
  rw [expectOneOf_eq] at ht
  split at ht
  · obtain rfl := onTo_ok.mp ht
    exact ⟨x.error, [], [s.cursor], by simpa [Path.add, Site.add] using h.consume⟩
  · split at ht
    · split at ht
      · rename_i u hu
        obtain rfl := onTo_ok.mp ht
        obtain ⟨e, he⟩ := reportHere_tracks hu h
        refine ⟨e, [u.cursor], [(u.discard u.node).cursor], ?_⟩
        have hboth := he.discard.consume
        simpa [Path.add, Site.add] using hboth
      · rename_i a u hu
        obtain rfl := report_error hu
        exact absurd ht not_onTo_halt
    · obtain ⟨e, he⟩ := h.fail_onTo ht
      exact ⟨e, [], [], by simpa using he⟩

/-- What holds of all nodes of some rules below an open node of another rule, before a step and
behind it. -/
theorem Tracks.run_onTo (h : Tracks s (x :: p)) (hrs : ∀ r ∈ rs, r.Single) (hm : m.Alternative)
    (hx : x.Each rs P) (hl : x.label.rule ∉ rs) (ht : Result.OnTo (m.run strategy s) t) :
    ∃ y, Tracks t (y :: p) ∧ y.label.rule ∉ rs ∧ y.Each rs P := by
  cases m with
  | relabel l =>
    obtain rfl := onTo_ok.mp ht
    exact ⟨_, h.relabel l, rule_not_mem hrs hm, hx⟩
  | wrap l =>
    obtain rfl := onTo_ok.mp ht
    refine ⟨_, h.wrap l, rule_not_mem hrs hm, ?_⟩
    have hinner : (x.close s.cursor).subtree.Each rs P :=
      Site.Each.subtree (x := x.close s.cursor) hx fun hrule => absurd hrule hl
    intro c hc
    rw [Site.parts, List.mem_filter, List.mem_singleton] at hc
    exact hc.1 ▸ hinner
  | take set =>
    obtain ⟨e, is, js, hy⟩ := h.take_onTo ht
    exact ⟨_, hy, hl, hx.alike (Site.alike_append x e is js)⟩
  | check floor highest =>
    rw [Move.run, checkFloor] at ht
    split at ht
    · obtain rfl := onTo_ok.mp ht
      exact ⟨x, h, hl, hx⟩
    · rcases ht with ht | ht
      · obtain ⟨e, he⟩ := reportHere_tracks ht h
        exact ⟨_, he, hl, hx⟩
      · cases report_error ht
  | fail expected =>
    obtain ⟨e, he⟩ := h.fail_onTo ht
    exact ⟨_, he, hl, hx⟩
  | sync =>
    rcases ht with ht | ht
    · obtain ⟨y, hxy, hy⟩ := h.sync_alike ht
      exact ⟨y, hy, hxy.label_eq ▸ hl, hx.alike hxy⟩
    · exact absurd ht syncStage_ne_resync

/-! ## Parses -/

/-- Whatever a parse of one of the rules meets, with `d` more rules to be open at most, `P` holds of
the node that it leaves, and of all nodes of the rules below that. -/
def Makes (strategy : Strategy) (limit : Nat) (ts : Array Token) (rs : List Rule)
    (P : Site → Prop) (d : Nat) : Prop :=
  ∀ r ∈ rs, ∀ {f : Nat} {s s' : State} {res : Result} {x : Site} {p : Path},
    Executes strategy limit d (opening r f s.coming) (s.enter (.ofRule r) f) res →
      closing res = .ok () s' → Tracks s (x :: p) → s.stream.Proper → s.stream.tokens = ts →
        ∃ y : Site, Tracks s' (x.add y.subtree :: p) ∧ y.subtree.Each rs P

/-- When a rule is left, tokens may be dropped into its node. What these leave alone, holds of the
node as it held of it before. -/
theorem closing_site {Q : Site → Prop} (hc : closing res = .ok () s')
    (hQ : ∀ {y z : Site}, Q y → y.Alike z → Q z)
    (hbody : ∀ t, res.OnTo t → ∃ y, Tracks t (y :: p) ∧ Q y) :
    ∃ v y, s' = State.leave v ∧ Tracks v (y :: p) ∧ Q (y.close v.cursor) := by
  obtain ⟨t, v, ht, rfl, hv⟩ := closing_ok hc
  obtain ⟨y, hy, hq⟩ := hbody t ht
  obtain ⟨is, hdrops⟩ := hv hy
  refine ⟨v, _, rfl, hdrops, hQ hq ?_⟩
  obtain ⟨hlabel, hparts⟩ := Site.alike_append y y.error is []
  rw [List.map_nil, List.append_nil] at hparts
  exact ⟨hlabel, hparts⟩

theorem closing_others (hc : closing res = .ok () s')
    (hbody : ∀ t, res.OnTo t → ∃ y, Tracks t (y :: p) ∧ y.label.rule ∉ rs ∧ y.Each rs P) :
    ∃ v y, s' = State.leave v ∧ Tracks v (y :: p) ∧ (y.close v.cursor).label.rule ∉ rs ∧
      (y.close v.cursor).Each rs P :=
  closing_site (Q := fun y => y.label.rule ∉ rs ∧ y.Each rs P) hc
    (fun ⟨hl, heach⟩ halike => ⟨halike.label_eq ▸ hl, heach.alike halike⟩) hbody

/-- A rule of another kind that is left is one more node, with what has been made below it. -/
theorem closing_each (hc : closing res = .ok () s')
    (hbody : ∀ t, res.OnTo t → ∃ y, Tracks t (y :: x :: p) ∧ y.label.rule ∉ rs ∧ y.Each rs P) :
    ∃ y : Site, Tracks s' (x.add y.subtree :: p) ∧ y.label.rule ∉ rs ∧ y.subtree.Each rs P := by
  obtain ⟨v, y, rfl, hy, hl, heach⟩ := closing_others hc hbody
  exact ⟨_, hy.leave, hl, heach.subtree fun hrule => absurd hrule hl⟩

/-- **What all parses of some rules leave**, all nodes of the rules have that a script makes. -/
theorem Executes.each (h : Executes strategy limit d q s res) (hrs : ∀ r ∈ rs, r.Single)
    (hmakes : ∀ d' < d, Makes strategy limit ts rs P d') (ht : Tracks s (x :: p))
    (hs : s.stream.Proper) (hts : s.stream.tokens = ts) (hq : q.Alternatives) (hx : x.Each rs P)
    (hl : x.label.rule ∉ rs) (hon : res.OnTo t) :
    ∃ y, Tracks t (y :: p) ∧ y.label.rule ∉ rs ∧ y.Each rs P := by
  induction h generalizing x p t with
  | done | idle =>
    obtain rfl := onTo_ok.mp hon
    exact ⟨x, ht, hl, hx⟩
  | @step _ m _ s s' _ hm hrun _ ih =>
    obtain ⟨y, hy, hl', hy'⟩ := ht.run_onTo hrs hq.1 hx hl (.inl hrun)
    have hadv := (m.run_evolves hm strategy hs).advances
    rw [hrun] at hadv
    exact ih hmakes hy (hadv.proper hs) (hadv.tokens_eq.trans hts) hq.2 hy' hl' hon
  | stop _ hrun => exact ht.run_onTo hrs hq.1 hx hl (hrun ▸ hon)
  | @call d r f _ s s' _ _ _ hb hc _ ihb ihp =>
    have hadv := (hb.evolves hs).closing.advances
    rw [hc] at hadv
    have hadd : ∃ y : Site, Tracks s' (x.add y.subtree :: p) ∧ y.subtree.Each rs P := by
      by_cases hr : r ∈ rs
      · exact hmakes d (Nat.lt_succ_self d) r hr hb hc ht hs hts
      · -- The node of another rule has what its own parse has made below it.
        have hlabel : (Label.ofRule r).rule ∉ rs := by rwa [Label.rule_ofRule]
        obtain ⟨y, hy, -, heach⟩ := closing_each hc fun u hu =>
          ihb (fun d' hd => hmakes d' (Nat.lt_succ_of_lt hd)) (ht.enter (.ofRule r) f) hs hts
            (opening_alternatives r f _) (fun c hc => by cases hc) hlabel hu
        exact ⟨y, hy, heach⟩
    obtain ⟨y, hy, heach⟩ := hadd
    exact ihp hmakes hy (hadv.proper hs) (hadv.tokens_eq.trans hts) hq (hx.add heach) hl hon
  | callStop _ _ hc =>
    rcases hon with hon | hon
    · cases hon
    · cases hon
      exact absurd hc closing_ne_resync
  | deep => exact absurd hon not_onTo_halt
  | go _ ih => exact ih hmakes ht hs hts (Phase.script_alternatives _) hx hl hon

/-! ## Trees -/

/-- What all nodes of some rules have in a subtree that is a whole tree. -/
theorem exists_site {root : Subtree} (h : tree.IsWhole root) (hroot : root.Each rs P) {id : NodeId}
    (hid : id < tree.size) (hrule : tree.rule id ∈ rs) :
    ∃ y : Site, y.id = id ∧ tree.Holds y.subtree ∧ P y := by
  obtain ⟨l, span, error, children, hmem⟩ := h.exists_mem_nodes hid
  have hholds := h.holds.of_mem_nodes hmem
  obtain ⟨_, hnode⟩ := hholds.node_eq
  rw [ParseTree.rule, ParseTree.label, hnode] at hrule
  exact ⟨⟨id, l, span, error, children⟩, rfl, hholds, hroot _ hmem hrule⟩

/-- A query is one more node below its root. -/
theorem statement_each (h : parseTokens options tokens = .ok tree) (hrs : ∀ r ∈ rs, r.Single)
    (hne : .singleStatement ∉ rs)
    (hmakes : ∀ d,
      Makes options.strategy options.maxDepth (TokenStream.ofList tokens).tokens rs P d) :
    ∃ root : Site, tree.IsWhole root.subtree ∧ root.subtree.Each rs P := by
  obtain ⟨d, u, s, hquery, hs, hfinish⟩ := statement_ends h
  have hproper := opened_proper tokens
  have hcall := query_calls options d tokens
  have hevolves := hcall.evolves hproper
  rw [hquery] at hcall hevolves
  cases d with
  | zero => cases hcall
  | succ d =>
    obtain ⟨res, hb, hc⟩ := hcall
    have hquery : Rule.query ∉ rs := rule_not_mem (l := .singleCommandQuery) hrs rfl
    obtain ⟨y, hy, -, heach⟩ := closing_each hc.symm fun t ht =>
      hb.each hrs (fun d _ => hmakes d) ((opened_tracks tokens).enter (.ofRule .query) 0) hproper
        rfl (opening_alternatives .query 0 _) (fun c hc => by cases hc) hquery ht
    obtain ⟨e, cs, n, hwhole, -, -, -, hnodes⟩ :=
      ended_tree hy (hevolves.advances.proper hproper) hevolves.frames_eq hs hfinish
    refine ⟨⟨0, .singleStatement, ⟨0, n⟩, e, cs ++ [Subtree.token n]⟩, hwhole, ?_⟩
    refine Site.Each.subtree ?_ fun hrule => absurd hrule hne
    -- All the root has beside its query are leaves.
    rw [Site.Each, Site.parts, List.filter_append, hnodes]
    exact List.forall_mem_singleton.mpr heach

/-- What stands behind an expression is dropped into its root. -/
theorem trailing_alike (hb : s.arena.Builds [x]) (h : trailing strategy s = .ok () s') :
    ∃ y, x.Alike y ∧ s'.arena.Builds [y] := by
  have hroot : s.arena.root.getD 0 = x.id := by rw [hb.root_eq]; rfl
  rw [trailing, hroot] at h
  split at h
  · cases hr : report strategy x.id s.trailingError s with
    | error a u => rw [hr] at h; cases h
    | ok _ u =>
      rw [hr] at h
      cases h
      have hbu := builds_report hb strategy s.trailingError
      rw [hr] at hbu
      obtain ⟨e, hbu⟩ := hbu
      obtain ⟨y, hxy, hid, hy⟩ := discardUntil_alike hbu ∅ u.stream.remaining
      refine ⟨y.close (u.discardUntil x.id ∅ u.stream.remaining).cursor,
        ⟨hxy.label_eq, hxy.parts_eq⟩, ?_⟩
      have hclose := hy.close (u.discardUntil x.id ∅ u.stream.remaining).cursor
      rw [hid] at hclose
      exact hclose
  · cases h
    exact ⟨x, .refl x, hb⟩

/-- An expression is the root itself. -/
theorem expression_each {floor : Nat} (h : parseExpressionTokens options floor tokens = .ok tree)
    (hrs : ∀ r ∈ rs, r.Single)
    (hmakes : ∀ d,
      Makes options.strategy options.maxDepth (TokenStream.ofList tokens).tokens rs P d) :
    ∃ root : Site, tree.IsWhole root.subtree ∧ root.subtree.Each rs P := by
  obtain ⟨u, s, hq, hs, hfinish⟩ := expression_ends h
  have hproper := start_proper tokens
  have hcall := standalone_calls options floor tokens
  rw [hq] at hcall
  cases hd : options.maxDepth with
  | zero =>
    rw [hd] at hcall
    cases hcall
  | succ d =>
    rw [hd] at hcall
    obtain ⟨res, hb, hc⟩ := hcall
    rw [← hd] at hb
    have hrule : Rule.booleanExpression ∉ rs := rule_not_mem (l := .booleanDefault) hrs rfl
    obtain ⟨v, y, rfl, hy, hl, heach⟩ := closing_others hc.symm fun t ht =>
      hb.each hrs (fun d _ => hmakes d) (openedExpression_tracks tokens floor) hproper rfl
        (opening_alternatives .booleanExpression floor _) (fun c hc => by cases hc) hrule ht
    obtain ⟨root, halike, hroot⟩ := trailing_alike hy.leave_root hs
    refine ⟨root, (hroot.isWhole hfinish).1, (heach.alike halike).subtree fun h => ?_⟩
    rw [halike.label_eq] at h
    exact absurd h hl

/-- **What all parses of some rules leave**, all nodes of the rules have in every tree. -/
theorem parse_each (entry : Entry) (h : entry.parse options tokens = .ok tree)
    (hrs : ∀ r ∈ rs, r.Single) (hne : .singleStatement ∉ rs)
    (hmakes : ∀ d,
      Makes options.strategy options.maxDepth (TokenStream.ofList tokens).tokens rs P d)
    {id : NodeId} (hid : id < tree.size) (hrule : tree.rule id ∈ rs) :
    ∃ y : Site, y.id = id ∧ tree.Holds y.subtree ∧ P y := by
  cases entry with
  | statement =>
    obtain ⟨root, hwhole, hroot⟩ := statement_each h hrs hne hmakes
    exact exists_site hwhole hroot hid hrule
  | expression floor =>
    obtain ⟨root, hwhole, hroot⟩ := expression_each h hrs hmakes
    exact exists_site hwhole hroot hid hrule

end Parser

end PipeQuery

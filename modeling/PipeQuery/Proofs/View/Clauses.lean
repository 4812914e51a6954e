import PipeQuery.Proofs.Parser.Origins
import PipeQuery.Proofs.View.Recovered

/-!
# Clauses of recovered trees

A clause of `project` keeps a source or renames one; which of the two is parsed is settled by the
`=` behind the first name. What the clause is taken to say is told by the names that are found below
its node. The two agree unless a name is missing: a rename without its old name is taken for a
clause that keeps the new one.

## Main definitions

* `ClauseNode`: the children of the node of a clause
* `ParseTree.Clause`: what a clause says, by its children

## Main results

* `makes_clauses`: the nodes that parses of clauses leave, with errors or without
* `clause_says`: what each clause of a tree says
* `clause_misread`: a rename is taken for a keep
-/

namespace PipeQuery

open Token (Kind)

/-- The children of the node of a clause: what was dropped where no name came first, a name, or two
names on both sides of `=`, the second of which may be missing. -/
inductive ClauseNode (ts : Array Token) (y : Site) : Prop where
  | dropped (is : List Nat) (h : y.children = is.map .discarded)
  | keep (a : Site) (i : Nat) (ha : a.label = .sourceIdentifier) (hi : a.children = [.token i])
    (h : y.children = [a.subtree])
  | rename (a b : Site) (i j : Nat) (ha : a.label = .sourceIdentifier)
    (hi : a.children = [.token i]) (hj : (ts[j]?.getD default).kind = .assign)
    (hb : b.label = .sourceIdentifier) (hparts : b.parts = [])
    (h : y.children = [a.subtree, .token j, b.subtree])

variable {ts : Array Token} {x y : Site}

/-- No clause stands below the node of a name. -/
theorem Site.each_name {P : Site → Prop} (hl : x.label = .sourceIdentifier) (hp : x.parts = []) :
    x.subtree.Each [.projectClause] P := by
  refine Site.Each.subtree (fun c hc => ?_) fun hrule => ?_
  · rw [hp] at hc
    cases hc
  · rw [hl] at hrule
    exact absurd hrule (by decide)

/-- No other clause stands below the node of a clause. -/
theorem ClauseNode.each (h : ClauseNode ts y) : y.subtree.Each [.projectClause] (ClauseNode ts) := by
  refine Site.Each.subtree (fun c hc => ?_) fun _ => h
  rw [Site.parts, List.mem_filter] at hc
  obtain ⟨hc, hnode⟩ := hc
  -- What stands below a clause is names and tokens.
  have hfirst {a : Site} {i : Nat} (ha : a.label = .sourceIdentifier)
      (hi : a.children = [.token i]) : a.subtree.Each [.projectClause] (ClauseNode ts) := by
    refine Site.each_name ha ?_
    rw [Site.parts, hi]
    rfl
  cases h with
  | dropped is h =>
    rw [h] at hc
    obtain ⟨i, -, rfl⟩ := List.mem_map.mp hc
    cases hnode
  | keep a i ha hi h =>
    rw [h, List.mem_singleton] at hc
    exact hc ▸ hfirst ha hi
  | rename a b i j ha hi hj hb hparts h =>
    simp only [h, List.mem_cons, List.not_mem_nil, or_false] at hc
    rcases hc with rfl | rfl | rfl
    · exact hfirst ha hi
    · cases hnode
    · exact Site.each_name hb hparts

namespace Parser

open Script

variable {strategy : Strategy} {limit d f : Nat} {r : Rule} {q : Script} {s s' t : State}
  {res : Result} {p : Path} {k : Kind} {w : List Kind} {form : ClauseForm}

/-! ## Names -/

/-- **A name that comes next** is one token. -/
theorem Executes.name (h : Executes strategy limit d (opening .sourceIdentifier 0 s.coming)
      (s.enter (.ofRule .sourceIdentifier) 0) res) (hc : closing res = .ok () s')
    (ht : Tracks s (x :: p)) (hs : s.stream.Proper) (hw : s.coming = k :: w)
    (hk : Rule.sourceIdentifier.first.contains k = true) :
    s'.stream.Proper ∧ s'.coming = w ∧ s'.stream.tokens = s.stream.tokens ∧
      ∃ a : Site, a.label = .sourceIdentifier ∧ a.children = [.token s.cursor] ∧
        Tracks s' (x.add a.subtree :: p) := by
  have hkind : (s.enter (.ofRule .sourceIdentifier) 0).kindAt 1 = k := by
    rw [kindAt_one (s := s.enter (.ofRule .sourceIdentifier) 0) hs]
    exact congrArg next hw
  have hrun : (Move.take Rule.sourceIdentifier.first).run strategy
      (s.enter (.ofRule .sourceIdentifier) 0) =
        .ok () (s.enter (.ofRule .sourceIdentifier) 0).consume := by
    rw [Move.run, expectOneOf_eq, hkind, if_pos hk]
  cases h.step_inv hrun
  cases hc
  obtain ⟨hproper, hcoming, -⟩ := hs.consume hw
  rw [coming_leave, stream_leave]
  exact ⟨hproper, hcoming, TokenStream.tokens_consume _, _, rfl, rfl,
    (ht.enter (.ofRule .sourceIdentifier) 0).consume.leave⟩

/-- What is found where a name is expected: no node stands below that of the name. -/
theorem Executes.name_or_drops (h : Executes strategy limit d (opening .sourceIdentifier 0 w)
      (s.enter (.ofRule .sourceIdentifier) 0) res) (hc : closing res = .ok () s')
    (ht : Tracks s (x :: p)) :
    ∃ b : Site, b.label = .sourceIdentifier ∧ b.parts = [] ∧ Tracks s' (x.add b.subtree :: p) := by
  obtain ⟨t, v, hon, rfl, hv⟩ := closing_ok hc
  have hrun : Result.OnTo ((Move.take Rule.sourceIdentifier.first).run strategy
      (s.enter (.ofRule .sourceIdentifier) 0)) t := by
    cases h with
    | step _ hrun hdone =>
      cases hdone
      rw [onTo_ok] at hon
      exact hon ▸ .inl hrun
    | stop _ hrun => exact hrun ▸ hon
  -- The step leaves tokens and dropped tokens in the node, and so does closing it.
  obtain ⟨e, is, js, hy⟩ := (ht.enter (.ofRule .sourceIdentifier) 0).take_onTo hrun
  obtain ⟨ks, hz⟩ := hv hy
  refine ⟨_, rfl, ?_, hz.leave⟩
  simp [Site.parts, Site.close, Subtree.isNode]

/-! ## Clauses -/

/-- A clause of either form starts with a name, and a rename has `=` behind it. -/
theorem clauseForm?_eq_some (h : clauseForm? w = some form) :
    ∃ k v, w = k :: v ∧ Rule.sourceIdentifier.first.contains k = true ∧
      (form = .rename → next v = .assign) := by
  unfold clauseForm? at h
  split at h
  · cases h
  · rename_i hfirst
    have hname : Rule.projectClause.first.contains (next w) = true := by simpa using hfirst
    cases w with
    | nil => cases hname
    | cons k v =>
      refine ⟨k, v, rfl, hname, ?_⟩
      rintro rfl
      split at h
      · assumption
      · cases h

/-- Where no name comes first, tokens are dropped. -/
theorem Executes.clause_dropped
    (h : Executes strategy limit d (leave Rule.projectClause.first) s res)
    (hc : closing res = .ok () s') (ht : Tracks s (y :: x :: p)) (hy : y.children = []) :
    ∃ z : Site, ClauseNode ts z ∧ Tracks s' (x.add z.subtree :: p) := by
  obtain ⟨t, v, hon, rfl, hv⟩ := closing_ok hc
  have hrun : Result.OnTo (fail strategy .noViable Rule.projectClause.first s) t := by
    cases h with
    | step _ hrun => exact absurd hrun fail_ne_ok
    | stop _ hrun =>
      rw [Move.run] at hrun
      rwa [hrun]
  obtain ⟨e, he⟩ := ht.fail_onTo hrun
  obtain ⟨is, hz⟩ := hv he
  refine ⟨_, .dropped is ?_, hz.leave⟩
  simp [Site.close, hy]

/-- A clause without `=` is a name. -/
theorem Executes.clause_keep (h : Executes strategy limit d (only .sourceIdentifier) s res)
    (hc : closing res = .ok () s') (ht : Tracks s (y :: x :: p)) (hs : s.stream.Proper)
    (hy : y.children = []) (hw : s.coming = k :: w)
    (hk : Rule.sourceIdentifier.first.contains k = true) :
    ∃ z : Site, ClauseNode ts z ∧ Tracks s' (x.add z.subtree :: p) := by
  obtain ⟨t, -, hon, -⟩ := closing_ok hc
  obtain ⟨_, _, u, -, hbody, hbodyc, hdone⟩ := h.call_body hon
  cases hdone
  cases hc
  obtain ⟨-, -, -, a, ha, hi, hu⟩ := hbody.name hbodyc ht hs hw hk
  refine ⟨_, .keep a s.cursor ha hi ?_, hu.leave⟩
  simp [Site.close, Site.add, hy]

/-- A clause with `=` behind its first name has the second name behind that, or what was found in
its place. -/
theorem Executes.clause_rename
    (h : Executes strategy limit d
      (.call .sourceIdentifier 0 (token .assign (only .sourceIdentifier))) s res)
    (hc : closing res = .ok () s') (ht : Tracks s (y :: x :: p)) (hs : s.stream.Proper)
    (hts : s.stream.tokens = ts) (hy : y.children = []) (hw : s.coming = k :: w)
    (hk : Rule.sourceIdentifier.first.contains k = true) (hassign : next w = .assign) :
    ∃ z : Site, ClauseNode ts z ∧ Tracks s' (x.add z.subtree :: p) := by
  obtain ⟨t, -, hon, -⟩ := closing_ok hc
  obtain ⟨_, _, u, -, hbody, hbodyc, hrest⟩ := h.call_body hon
  obtain ⟨hproper, hcoming, htokens, a, ha, hi, hu⟩ := hbody.name hbodyc ht hs hw hk
  rw [← hcoming] at hassign
  have hj : (ts[u.cursor]?.getD default).kind = .assign := by
    rw [← hts, ← htokens, ← hassign]
    exact hproper.token_kind
  have hrest := hrest.step_inv (take_run hproper hassign)
  obtain ⟨_, _, v, -, hbody', hbodyc', hdone⟩ := hrest.call_body hon
  cases hdone
  cases hc
  obtain ⟨b, hb, hparts, hv⟩ := hbody'.name_or_drops hbodyc' hu.consume
  refine ⟨_, .rename a b s.cursor u.cursor ha hi hj hb hparts ?_, hv.leave⟩
  simp [Site.close, Site.add, hy]

/-- **What a parse of a clause leaves**, whatever it meets. -/
theorem makes_clauses : Makes strategy limit ts [.projectClause] (ClauseNode ts) d := by
  intro r hr f s s' res x p h hc ht hs hts
  obtain rfl := List.mem_singleton.mp hr
  have hopen := ht.enter (.ofRule .projectClause) f
  have hnode : ∃ z : Site, ClauseNode ts z ∧ Tracks s' (x.add z.subtree :: p) := by
    rw [opening] at h
    split at h
    · rename_i hform
      obtain ⟨k, w, hw, hk, -⟩ := clauseForm?_eq_some hform
      exact h.clause_keep hc hopen hs rfl hw hk
    · rename_i hform
      obtain ⟨k, w, hw, hk, hassign⟩ := clauseForm?_eq_some hform
      exact h.clause_rename hc hopen hs hts rfl hw hk (hassign rfl)
    · exact h.clause_dropped hc hopen rfl
  obtain ⟨z, hz, ht⟩ := hnode
  exact ⟨z, ht, hz.each⟩

end Parser

namespace ParseTree

open Subtree

variable {t : ParseTree} {id a b : NodeId} {i : Nat} {new : String}

/-! ## What clauses say -/

/-- What a clause says, by the children of its node. -/
inductive Clause (t : ParseTree) (id : NodeId) : Option ProjectClause → Prop where
  /-- Where no name comes first, nothing is said. -/
  | dropped (is : List Nat) (h : t.children id = is.map .discarded) : Clause t id none
  /-- One name is kept. -/
  | keep (a : NodeId) (name : String) (h : t.children id = [.node a])
    (ha : t.sourceName? a = some name) : Clause t id (some (.keep name))
  /-- The name behind `=` is the old one of that before it. -/
  | rename (a b : NodeId) (i : Nat) (new old : String)
    (h : t.children id = [.node a, .token i, .node b]) (hi : (t.token i).kind = .assign)
    (ha : t.sourceName? a = some new) (hb : t.sourceName? b = some old) :
    Clause t id (some (.rename new old))
  /-- Where the old name is missing, the new one is taken for a name that is kept. -/
  | misread (a b : NodeId) (i : Nat) (new : String)
    (h : t.children id = [.node a, .token i, .node b]) (hi : (t.token i).kind = .assign)
    (ha : t.sourceName? a = some new) (hb : t.sourceName? b = none) :
    Clause t id (some (.keep new))

/-- The name of one token. -/
theorem Holds.sourceName_eq {x : Site} (h : t.Holds x.subtree) (hl : x.label = .sourceIdentifier)
    (hi : x.children = [.token i]) : t.sourceName? x.id = some (unquoteName (t.token i).text) := by
  rw [sourceName?, h.label_eq, if_pos hl, nameAt?, firstToken?, directTokens, h.children_eq, hi]
  rfl

/-- A clause says what the names below it say. -/
theorem projectClause?_eq (hl : t.label id = .projectClause)
    (h : t.children id = [.node a, .token i, .node b]) (ha : t.sourceName? a = some new) :
    t.projectClause? id =
      some (((t.sourceName? b).map (ProjectClause.rename new)).getD (.keep new)) := by
  cases hb : t.sourceName? b <;> simp [projectClause?, hl, childNodes, h, ha, hb]

theorem clause_of_node {y : Site} (hy : ClauseNode t.tokens y) (h : t.Holds y.subtree)
    (hl : t.label y.id = .projectClause) : t.Clause y.id (t.projectClause? y.id) := by
  have hchildren := h.children_eq
  cases hy with
  | dropped is his =>
    have hdropped : t.children y.id = is.map .discarded := by
      rw [hchildren, his, List.map_map]
      rfl
    have hnone : t.projectClause? y.id = none := by
      simp [projectClause?, hl, childNodes, hdropped]
    exact hnone ▸ .dropped is hdropped
  | keep a i ha hi hone =>
    have hname := (h.of_mem_children (hone ▸ List.mem_cons_self)).sourceName_eq ha hi
    have hnode : t.children y.id = [.node a.id] := by
      rw [hchildren, hone]
      rfl
    have hkeep : t.projectClause? y.id = some (.keep (unquoteName (t.token i).text)) := by
      simp [projectClause?, hl, childNodes, hnode, hname]
    exact hkeep ▸ .keep a.id _ hnode hname
  | rename a b i j ha hi hj hb hparts hboth =>
    have hname := (h.of_mem_children (hboth ▸ List.mem_cons_self)).sourceName_eq ha hi
    have hnodes : t.children y.id = [.node a.id, .token j, .node b.id] := by
      rw [hchildren, hboth]
      rfl
    rw [projectClause?_eq hl hnodes hname]
    cases hold : t.sourceName? b.id with
    | none => exact .misread a.id b.id j _ hnodes hj hname hold
    | some old => exact .rename a.id b.id j _ old hnodes hj hname hold

end ParseTree

namespace Parser

variable {options : Options} {tokens : List Token} {t : ParseTree}

theorem single_projectClause : Rule.projectClause.Single := by
  intro l
  cases l <;> decide

/-- **What the clauses of a tree say**, with errors or without. Where a rename is said, `=` stands
between the new name and the old one. Where a name is said to be kept, the clause is that name
alone; or it is a rename, and the old name is missing behind `=`. -/
theorem clause_says (h : parseTokens options tokens = .ok t) {id : NodeId} (hid : id < t.size)
    (hl : t.label id = .projectClause) : t.Clause id (t.projectClause? id) := by
  have hrule : t.rule id ∈ [Rule.projectClause] := by
    rw [ParseTree.rule, hl]
    exact List.mem_singleton_self _
  obtain ⟨y, rfl, hholds, hclause⟩ := parse_each .statement h
    (fun r hr => List.mem_singleton.mp hr ▸ single_projectClause) (by decide)
    (fun _ => makes_clauses) hid hrule
  obtain ⟨_, _, _, -, -, htokens, -⟩ := statement_tree h
  rw [← htokens] at hclause
  exact ParseTree.clause_of_node hclause hholds hl

/-- The tokens of `from a | project b =`, and of what stands behind that. -/
def halfRename (rest : List Token) : List Token :=
  [Kind.fromCmd, .sourceName, .pipe, .projectCmd].map Token.ofKind ++
    { Token.ofKind .sourceName with text := "b" } :: .ofKind .assign :: rest

/-- In `from a | project b = , c` a stray comma stands before the old name. -/
theorem clause_says_stray :
    let rest : List Token := [.ofKind .comma, { Token.ofKind .sourceName with text := "c" }]
    ∃ t, (parseTokens ⟨60, .recover⟩ (halfRename rest) = .ok t ∧ 8 < t.size ∧
        t.label 8 = .projectClause) ∧
      t.projectClause? 8 = some (.rename "b" "c") ∧ t.Clause 8 (t.projectClause? 8) := by
  intro rest
  obtain ⟨t, h, hid, hl, hsays⟩ : ∃ t, parseTokens ⟨60, .recover⟩ (halfRename rest) = .ok t ∧
      8 < t.size ∧ t.label 8 = .projectClause ∧
      t.projectClause? 8 = some (.rename "b" "c") := by
    decide +kernel
  exact ⟨t, ⟨h, hid, hl⟩, hsays, clause_says h hid hl⟩

/-- In `from a | project b =` the old name is missing, and `b` is taken for a name that is kept. -/
theorem clause_misread :
    ∃ t a b i, parseTokens ⟨60, .recover⟩ (halfRename []) = .ok t ∧ t.label 8 = .projectClause ∧
      t.children 8 = [.node a, .token i, .node b] ∧ (t.token i).kind = .assign ∧
      t.sourceName? b = none ∧ t.projectClause? 8 = some (.keep "b") := by
  obtain ⟨t, h⟩ : ∃ t, parseTokens ⟨60, .recover⟩ (halfRename []) = .ok t ∧
      t.label 8 = .projectClause ∧ t.children 8 = [.node 9, .token 5, .node 10] ∧
      (t.token 5).kind = .assign ∧ t.sourceName? 10 = none ∧
      t.projectClause? 8 = some (.keep "b") := by
    decide +kernel
  exact ⟨t, 9, 10, 5, h⟩

end Parser

end PipeQuery

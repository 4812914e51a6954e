import PipeQuery.Proofs.Parser.Completeness
import PipeQuery.Proofs.Parser.Verdict

/-!
# Valid trees

A valid tree is the stratified tree of its tokens, and every word of the grammar has a valid tree
if the options allow the parse to open four rules for each of its tokens.

## Main definitions

* `ParseTree.Follows`: the children of nodes that stand for a row of goals

## Main results

* `statement_groups`, `expression_groups`: what a valid tree groups
* `statement_accepts`, `expression_accepts`: every word of the grammar has a valid tree
* `ParseTree.IsWhole.exists_alternative`: each node of a valid tree is an alternative
-/

namespace PipeQuery

open Token (Kind)

/-! ## Nodes of stratified trees -/

namespace Subtree

variable {tokens : Array Token} {xs : List Subtree} {us ts : List Shape} {l : Label} {k : Kind}

theorem shapes_eq_cons_node (h : shapes tokens xs = .node l us :: ts) :
    ∃ id span e cs ys, xs = node id l span e cs :: ys ∧ shapes tokens cs = us ∧
      shapes tokens ys = ts := by
  cases xs with
  | nil => cases h
  | cons x ys =>
    obtain ⟨hx, hys⟩ := List.cons.inj h
    cases x with
    | node id l' span e cs =>
      rw [shape] at hx
      obtain ⟨rfl, hcs⟩ := Shape.node.inj hx
      exact ⟨id, span, e, cs, ys, rfl, hcs, hys⟩
    | token | discarded => cases hx

theorem shapes_eq_cons_token (h : shapes tokens xs = .token k :: ts) :
    ∃ i ys, xs = token i :: ys ∧ (tokens[i]?.getD default).kind = k ∧ shapes tokens ys = ts := by
  cases xs with
  | nil => cases h
  | cons x ys =>
    obtain ⟨hx, hys⟩ := List.cons.inj h
    cases x with
    | token i => exact ⟨i, ys, rfl, Shape.token.inj hx, hys⟩
    | node =>
      rw [shape] at hx
      cases hx
    | discarded => cases hx

theorem shapes_eq_nil (h : shapes tokens xs = []) : xs = [] := by
  cases xs with
  | nil => rfl
  | cons => cases h

end Subtree

open Subtree

/-- Each node of a stratified tree is an alternative of the stratified grammar. -/
theorem Stratified.exists_alternative {tokens : Array Token} {gs : List Goal} {ts : List Shape}
    {w : List Kind} (h : Stratified gs ts w) {xs : List Subtree} (hxs : shapes tokens xs = ts)
    {id : NodeId} {l : Label} {span : TokenSpan} {e : Option SyntaxError}
    {children : List Subtree} (hy : .node id l span e children ∈ nodesOf xs) :
    ∃ g body v, Alternative g l body ∧ Stratified body (shapes tokens children) v := by
  induction h generalizing xs with
  | nil =>
    rw [shapes_eq_nil hxs] at hy
    cases hy
  | token _ ih =>
    obtain ⟨i, ys, rfl, -, hys⟩ := shapes_eq_cons_token hxs
    exact ih hys hy
  | @rule f _ body _ _ _ v _ ha hv _ ihv ihw =>
    obtain ⟨_, _, _, cs, ys, rfl, hcs, hys⟩ := shapes_eq_cons_node hxs
    rw [nodesOf, nodes, List.cons_append, List.mem_cons, List.mem_append] at hy
    rcases hy with hy | hy | hy
    · obtain ⟨-, rfl, -, -, rfl⟩ := Subtree.node.inj hy
      rw [← hcs] at hv
      exact ⟨f, body, v, ha, hv⟩
    · exact ihv hcs hy
    · exact ihw hys hy

/-- The word of a stratified tree is that of its leaves. -/
theorem Stratified.word_eq {tokens : Array Token} {gs : List Goal} {ts : List Shape}
    {w : List Kind} (h : Stratified gs ts w) {xs : List Subtree} (hxs : shapes tokens xs = ts) :
    w = (Branch.leafIndicesOf (branches xs)).map fun i => (tokens[i]?.getD default).kind := by
  induction h generalizing xs with
  | nil =>
    rw [shapes_eq_nil hxs]
    rfl
  | token _ ih =>
    obtain ⟨i, ys, rfl, rfl, hys⟩ := shapes_eq_cons_token hxs
    rw [ih hys]
    rfl
  | rule _ _ _ ihv ihw =>
    obtain ⟨_, _, _, cs, ys, rfl, hcs, hys⟩ := shapes_eq_cons_node hxs
    rw [ihv hcs, ihw hys, branches, Branch.leafIndicesOf, branch, Branch.leafIndices,
      List.map_append]

/-- Children that stand for a row of goals, and so down to the leaves. -/
inductive ParseTree.Follows (t : ParseTree) : List Goal → List Slot → Prop where
  | nil : Follows t [] []
  | token {i f : Nat} {gs : List Goal} {ss : List Slot} (h : Follows t gs ss) :
    Follows t (⟨.token (t.token i).kind, f⟩ :: gs) (.token i :: ss)
  | node {id : NodeId} {f : Nat} {body gs : List Goal} {ss : List Slot}
    (ha : Alternative f (t.label id) body) (hbody : Follows t body (t.children id))
    (h : Follows t gs ss) : Follows t (⟨.rule (t.rule id), f⟩ :: gs) (.node id :: ss)

/-- A tree that holds stratified subtrees has them follow the goals. -/
theorem Stratified.follows {t : ParseTree} {gs : List Goal} {ts : List Shape} {w : List Kind}
    (h : Stratified gs ts w) {xs : List Subtree} (hxs : shapes t.tokens xs = ts)
    (hholds : ∀ x ∈ xs, t.Holds x) : t.Follows gs (xs.map slot) := by
  induction h generalizing xs with
  | nil =>
    rw [shapes_eq_nil hxs]
    exact .nil
  | token _ ih =>
    obtain ⟨i, ys, rfl, rfl, hys⟩ := shapes_eq_cons_token hxs
    exact .token (ih hys fun y hy => hholds y (List.mem_cons_of_mem _ hy))
  | @rule f l body gs us ts v w ha _ _ ihv ihw =>
    obtain ⟨id, _, _, cs, ys, rfl, hcs, hys⟩ := shapes_eq_cons_node hxs
    have hx := hholds _ List.mem_cons_self
    obtain ⟨_, hnode⟩ := hx.node_eq
    have hlabel : t.label id = l := by rw [ParseTree.label, hnode]
    have hchildren : t.children id = cs.map slot := by rw [ParseTree.children, hnode]
    have hbody := ihv hcs fun c hc => hx.of_mem_children hc
    have hrest := ihw hys fun y hy => hholds y (List.mem_cons_of_mem _ hy)
    rw [← hchildren] at hbody
    rw [← hlabel] at ha ⊢
    exact .node ha hbody hrest

namespace ParseTree

variable {t : ParseTree} {x : Subtree} {id : NodeId} {r : Rule} {f : Nat} {k : Kind}
  {w : List Kind} {gs : List Goal} {ss : List Slot}

/-- What follows a row of goals stands for their symbols. -/
theorem Follows.map_symbol? (h : t.Follows gs ss) :
    ss.map t.symbol? = (gs.map Goal.symbol).map some := by
  induction h with
  | nil => rfl
  | token _ ih | node _ _ _ _ ih => rw [List.map_cons, ih]; rfl

/-- **Each node of a stratified tree is an alternative**, and so are the nodes below it. -/
theorem IsWhole.exists_alternative (h : t.IsWhole x) (hx : Groups r f (x.shape t.tokens) w)
    (hid : id < t.size) :
    ∃ g body, Alternative g (t.label id) body ∧ t.Follows body (t.children id) ∧
      Groups (t.rule id) g (t.shape id) (t.word id) := by
  obtain ⟨l, span, e, cs, hy⟩ := h.exists_mem_nodes hid
  have hshapes : shapes t.tokens [x] = [x.shape t.tokens] := rfl
  have hmem : .node id l span e cs ∈ nodesOf [x] := by
    rw [nodesOf, nodesOf, List.append_nil]
    exact hy
  obtain ⟨g, body, v, ha, hv⟩ := Stratified.exists_alternative hx hshapes hmem
  have hholds := h.holds.of_mem_nodes hy
  obtain ⟨_, hnode⟩ := hholds.node_eq
  have hlabel : t.label id = l := by rw [label, hnode]
  have hchildren : t.children id = cs.map slot := by rw [ParseTree.children, hnode]
  refine ⟨g, body, ?_, ?_, ?_⟩
  · rwa [hlabel]
  · rw [hchildren]
    exact hv.follows rfl fun c hc => hholds.of_mem_children hc
  · have hword : t.word id = v := by
      rw [word, h.leafIndices_eq hy, hv.word_eq rfl]
      rfl
    rw [rule, hlabel, hword, h.shape_eq hy, Subtree.shape]
    exact .of_alternative ha hv

/-- Each node of a stratified tree spells an alternative of its label. -/
theorem IsWhole.spells (h : t.IsWhole x) (hx : Groups r f (x.shape t.tokens) w)
    (hid : id < t.size) : t.Spells id := by
  obtain ⟨g, body, ha, hbody, -⟩ := h.exists_alternative hx hid
  exact ⟨_, ha.production, hbody.map_symbol?⟩

end ParseTree

namespace Parser

variable {options : Options} {tokens : List Token} {t : ParseTree} {floor : Nat}

/-! ## What is read is grouped -/

theorem Reads.only_inv {r : Rule} {n n' : Draft} {w : List Kind}
    (h : Reads (.only r) n w (.read n' [])) :
    ∃ q, n' = n.add q.shape ∧ Reads (opening r 0 w) (.fresh r) w (.read q []) := by
  cases h with
  | call hr hp =>
    cases hp
    exact ⟨_, rfl, hr⟩

/-- **A valid tree of a query** groups its tokens. -/
theorem statement_groups (h : parseTokens options tokens = .ok t) (hv : t.isValid = true) :
    ∃ x, t.IsWhole x ∧ Groups .singleStatement 0 (x.shape t.tokens)
      ((TokenStream.ofList tokens).coming ++ [.endOfInput]) := by
  have hne := isEmpty_eq_false_of_run h fun he => by cases he
  have hverdict := statement_verdict options hne
  rw [h] at hverdict
  cases hverdict with
  | valid hx hi hr hs =>
    obtain ⟨q, rfl, hq⟩ := hr.only_inv
    obtain ⟨v, hw, hg, -⟩ := hq.groups (by decide)
    rw [List.append_nil] at hw
    refine ⟨_, hx, ?_⟩
    rw [hs, hw]
    exact .of_alternative (.of_production .singleStatement) (hg.cons (.token .nil))
  | faulty hr ho hvalid => rw [hvalid t rfl] at hv; cases hv

/-- **A valid tree of an expression** groups its tokens. -/
theorem expression_groups (h : parseExpressionTokens options floor tokens = .ok t)
    (hv : t.isValid = true) :
    ∃ x, t.IsWhole x ∧
      Groups .booleanExpression floor (x.shape t.tokens) (TokenStream.ofList tokens).coming := by
  have hne := isEmpty_eq_false_of_run h fun he => by cases he
  have hverdict := expression_verdict options floor hne
  rw [h] at hverdict
  cases hverdict with
  | valid hx hi hr hs =>
    obtain ⟨v, hw, hg, -⟩ := hr.groups (by decide)
    rw [List.append_nil] at hw
    refine ⟨_, hx, ?_⟩
    rw [hs, hw]
    exact hg
  | faulty hr ho hvalid => rw [hvalid t rfl] at hv; cases hv

/-! ## Every word has a valid tree -/

theorem isEmpty_eq_false (h : (TokenStream.ofList tokens).coming ≠ []) :
    (TokenStream.ofList tokens).isEmpty = false := by
  have hadd := (TokenStream.proper_ofList tokens).cursor_add
  have hlen := List.length_pos_iff.mpr h
  rw [TokenStream.isEmpty, beq_eq_false_iff_ne]
  omega

/-- A word of the grammar is read to its end. -/
theorem exists_reads {r : Rule} {w : List Kind} (h : Derives [.rule r] w)
    (hk : Closes r 0 .endOfInput) :
    ∃ q, Reads (opening r 0 w) (.fresh r) w (.read q []) := by
  obtain ⟨ts, hs⟩ := h.exists_stratified
  obtain ⟨t, _, v, _, rfl, rfl, ht, hnil⟩ := hs.cons_rule_inv
  cases hnil
  have hk : Closes r 0 (next []) := hk
  obtain ⟨q, -, hq⟩ := Groups.reads ht hk
  exact ⟨q, hq⟩

/-- **Every word of a query has a valid tree**, if enough rules may be open. -/
theorem statement_accepts
    (hd : 4 * (TokenStream.ofList tokens).coming.length + 8 ≤ options.maxDepth)
    (h : Derives [.rule .query] (TokenStream.ofList tokens).coming) :
    ∃ t, parseTokens options tokens = .ok t ∧ t.isValid = true := by
  have hverdict := statement_verdict options (isEmpty_eq_false h.ne_nil)
  obtain ⟨q, hq⟩ := exists_reads h (by decide)
  generalize parseTokens options tokens = res at hverdict
  cases hverdict with
  | valid hx hi => exact ⟨_, rfl, hx.isValid_iff.mpr hi⟩
  | faulty hr ho => exact absurd (hr.unique (.call hq .done)) (ho _)
  | deep hlt => omega

/-- **Every word of an expression has a valid tree**, if enough rules may be open. -/
theorem expression_accepts
    (hd : 4 * (TokenStream.ofList tokens).coming.length + 6 ≤ options.maxDepth)
    (h : Derives [.rule .booleanExpression] (TokenStream.ofList tokens).coming) :
    ∃ t, parseExpressionTokens options 0 tokens = .ok t ∧ t.isValid = true := by
  have hverdict := expression_verdict options 0 (isEmpty_eq_false h.ne_nil)
  obtain ⟨q, hq⟩ := exists_reads h (by decide)
  generalize parseExpressionTokens options 0 tokens = res at hverdict
  cases hverdict with
  | valid hx hi => exact ⟨_, rfl, hx.isValid_iff.mpr hi⟩
  | faulty hr ho => exact absurd (hr.unique hq) (ho q)
  | deep hlt => omega

end Parser

end PipeQuery

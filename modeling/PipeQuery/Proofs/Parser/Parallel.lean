import PipeQuery.Proofs.Parser.Invariants
import PipeQuery.Proofs.Tree.Commands

/-!
# Two parses side by side

Two parses on course, with the same kinds of tokens to come, build the same: the nodes that they
open and the tokens that they match are the same up to where the nodes and the tokens stand. So
what a rule is parsed as depends on its own tokens only.

## Main definitions

* `Parallel`: two states on course whose innermost open nodes are the same after they are moved

## Main results

* `Parallel.step`: a step that is read keeps two parses side by side
* `Reads.parallel`: so does a script that is read
-/

namespace PipeQuery

/-! ## Open nodes that are moved -/

namespace Site

variable {k n : Nat}

theorem shift_close (x : Site) (stop : Nat) :
    (x.close stop).shift k n = (x.shift k n).close (stop + n) := by
  simp [shift, close, TokenSpan.shift, Nat.add_max_add_right]

theorem shift_wrap (id : NodeId) (label : Label) (stop : Nat) (x : Site) :
    (x.wrap id label stop).shift k n = (x.shift k n).wrap (id + k) label (stop + n) := by
  show mk (id + k) label ((x.close stop).shift k n).span none
    [((x.close stop).shift k n).subtree] = _
  rw [shift_close]
  rfl

theorem shift_add (c : Subtree) (x : Site) :
    (x.add c).shift k n = (x.shift k n).add (c.shift k n) := by
  rw [shift, add, Subtree.shiftAll_append]
  rfl

theorem shift_opened (id : NodeId) (label : Label) (start : Nat) :
    (opened id label start).shift k n = opened (id + k) label (start + n) := rfl

end Site

namespace Parser

open Token (Kind KindSet)

/-- Two states on course with the same kinds of tokens to come. Their innermost open nodes are the
same, and so are the places of the next node and the next token, when those of the one are moved by
`k` and `n` and those of the other by `k'` and `n'`. -/
structure Parallel (k n k' n' : Nat) (s : State) (x : Site) (p : Path) (s' : State) (x' : Site)
    (p' : Path) : Prop where
  left : OnCourse s x p
  right : OnCourse s' x' p'
  coming_eq : s'.coming = s.coming
  size_eq : s'.arena.size + k' = s.arena.size + k
  cursor_eq : s'.cursor + n' = s.cursor + n
  site_eq : x'.shift k' n' = x.shift k n

variable {strategy strategy' : Strategy} {limit limit' d d' k n k' n' : Nat} {q : Script}
  {s s' t t' : State} {x x' y y' : Site} {p p' : Path} {m : Move} {label : Label}
  {a : Kind} {v w : List Kind} {r : Rule} {f : Nat} {u u' : Draft} {o : Outcome}

theorem Tracks.size_wrap (h : Tracks s (x :: p)) (label : Label) :
    (s.wrap label).arena.size = s.arena.size + 1 := by
  obtain ⟨f, rest, hframes, -⟩ := h.exists_frames
  rw [State.wrap, hframes]
  exact Arena.size_wrap ..

namespace Parallel

/-! ## Steps side by side -/

theorem relabel (h : Parallel k n k' n' s x p s' x' p') (label : Label) :
    Parallel k n k' n' (s.relabel label) { x with label := label } p
      (s'.relabel label) { x' with label := label } p' := by
  constructor
  case left => exact h.left.relabel
  case right => exact h.right.relabel
  case coming_eq => exact h.coming_eq
  case size_eq =>
    rw [State.relabel, State.relabel, Arena.size_relabel, Arena.size_relabel]
    exact h.size_eq
  case cursor_eq => exact h.cursor_eq
  case site_eq => exact congrArg (fun x : Site => { x with label := label }) h.site_eq

theorem wrap (h : Parallel k n k' n' s x p s' x' p') (label : Label) :
    Parallel k n k' n' (s.wrap label) (x.wrap s.arena.size label s.cursor) p
      (s'.wrap label) (x'.wrap s'.arena.size label s'.cursor) p' := by
  have hsize := h.size_eq
  constructor
  case left => exact h.left.wrap label
  case right => exact h.right.wrap label
  case coming_eq =>
    rw [coming_wrap, coming_wrap]
    exact h.coming_eq
  case size_eq =>
    rw [h.left.tracks.size_wrap, h.right.tracks.size_wrap]
    omega
  case cursor_eq =>
    rw [cursor_wrap, cursor_wrap]
    exact h.cursor_eq
  case site_eq => rw [Site.shift_wrap, Site.shift_wrap, h.site_eq, h.size_eq, h.cursor_eq]

theorem consume (h : Parallel k n k' n' s x p s' x' p') (hw : s.coming = a :: w) :
    Parallel k n k' n' s.consume (x.add (.token s.cursor)) p
      s'.consume (x'.add (.token s'.cursor)) p' ∧ s.consume.coming = w := by
  obtain ⟨hleft, hcoming, hcursor⟩ := h.left.consume hw
  obtain ⟨hright, hcoming', hcursor'⟩ := h.right.consume (h.coming_eq.trans hw)
  have hadd := h.cursor_eq
  refine ⟨?_, hcoming⟩
  constructor
  case left => exact hleft
  case right => exact hright
  case coming_eq => rw [hcoming, hcoming']
  case size_eq =>
    rw [State.consume, State.consume, Arena.size_push, Arena.size_push]
    exact h.size_eq
  case cursor_eq => omega
  case site_eq =>
    rw [Site.shift_add, Site.shift_add, h.site_eq, Subtree.shift, Subtree.shift, h.cursor_eq]

theorem enter (h : Parallel k n k' n' s x p s' x' p') (r : Rule) (f : Nat) :
    Parallel k n k' n' (s.enter (.ofRule r) f) (.opened s.arena.size (.ofRule r) s.cursor) (x :: p)
      (s'.enter (.ofRule r) f) (.opened s'.arena.size (.ofRule r) s'.cursor) (x' :: p') := by
  have hsize := h.size_eq
  constructor
  case left => exact h.left.enter r f
  case right => exact h.right.enter r f
  case coming_eq => exact h.coming_eq
  case size_eq =>
    rw [State.enter, State.enter, Arena.size_openNode, Arena.size_openNode]
    omega
  case cursor_eq => exact h.cursor_eq
  case site_eq => rw [Site.shift_opened, Site.shift_opened, h.size_eq, h.cursor_eq]

theorem size_leave (s : State) : s.leave.arena.size = s.arena.size := by
  rw [State.leave]
  split
  · rfl
  · exact Arena.size_close ..

/-- A rule that ends is one more child of the node above it. -/
theorem leave (h : Parallel k n k' n' s x p s' x' p')
    (h' : Parallel k n k' n' t y (x :: p) t' y' (x' :: p')) :
    Parallel k n k' n' t.leave (x.add (y.close t.cursor).subtree) p
      t'.leave (x'.add (y'.close t'.cursor).subtree) p' := by
  constructor
  case left => exact h'.left.leave h.left.intact
  case right => exact h'.right.leave h.right.intact
  case coming_eq =>
    rw [coming_leave, coming_leave]
    exact h'.coming_eq
  case size_eq =>
    rw [size_leave, size_leave]
    exact h'.size_eq
  case cursor_eq =>
    rw [cursor_leave, cursor_leave]
    exact h'.cursor_eq
  case site_eq =>
    rw [Site.shift_add, Site.shift_add, h.site_eq, ← Site.shift_subtree, ← Site.shift_subtree,
      Site.shift_close, Site.shift_close, h'.site_eq, h'.cursor_eq]

/-- **A step that is read is taken by both**, and no error is met. -/
theorem step (h : Parallel k n k' n' s x p s' x' p') (strategy strategy' : Strategy)
    (hlabel : x.label = u.label) (ha : m.apply u s.coming = some (u', w)) :
    ∃ t y t' y', m.run strategy s = .ok () t ∧ m.run strategy' s' = .ok () t' ∧
      Parallel k n k' n' t y p t' y' p' ∧ y.label = u'.label ∧ y.span.start = x.span.start ∧
      t.coming = w ∧ s.arena.SameErrors t.arena := by
  cases m with
  | relabel l =>
    cases ha
    exact ⟨_, _, _, _, rfl, rfl, h.relabel l, rfl, rfl, rfl, Arena.sameErrors_relabel ..⟩
  | wrap l =>
    cases ha
    exact ⟨_, _, _, _, rfl, rfl, h.wrap l, rfl, rfl, coming_wrap s l, sameErrors_wrap s l⟩
  | take set =>
    cases hw : s.coming with
    | nil => rw [hw] at ha; cases ha
    | cons a v =>
      rw [hw, Move.apply] at ha
      split at ha
      · rename_i hk
        cases ha
        obtain ⟨hp, hcoming⟩ := h.consume hw
        -- The same token comes next on both sides.
        have hrun {strategy : Strategy} {s : State} (hs : s.stream.Proper)
              (hw : s.coming = a :: w) : (Move.take set).run strategy s = .ok () s.consume := by
          have hkind : s.kindAt 1 = a := by rw [kindAt_one hs, hw, next_cons]
          rw [Move.run, expectOneOf_eq, hkind, if_pos hk]
        exact ⟨_, _, _, _, hrun h.left.proper hw, hrun h.right.proper (h.coming_eq.trans hw), hp,
          hlabel, rfl, hcoming, Arena.sameErrors_push ..⟩
      · cases ha
  | check floor highest =>
    rw [Move.apply] at ha
    split at ha
    · rename_i hf
      cases ha
      have hrun (strategy : Strategy) (s : State) :
          (Move.check floor highest).run strategy s = .ok () s := by
        rw [Move.run, checkFloor, if_pos hf]
        rfl
      exact ⟨_, _, _, _, hrun strategy s, hrun strategy' s', h, hlabel, rfl, rfl, .refl _⟩
    · cases ha
  | fail | sync => cases ha

end Parallel

/-! ## Scripts side by side -/

/-- A rule that is read ends without an error, unless too many rules are open. -/
theorem OnCourse.reads_ok {res : Result}
    (h : OnCourse (s.enter (.ofRule r) f) (.opened s.arena.size (.ofRule r) s.cursor) p)
    (he : Executes strategy limit d (opening r f s.coming) (s.enter (.ofRule r) f) res)
    (hr : Reads (opening r f s.coming) (.fresh r) s.coming (.read u w)) :
    (∃ t, res = .ok () t) ∨ (∃ t, res = .error .halt t) ∧ d < r.height + 4 * s.coming.length := by
  have hfresh := draft_opened (r := r) (s.enter (.ofRule r) f).stream.tokens s.arena.size s.cursor
  cases he.simulated h with
  | read => exact .inl ⟨_, rfl⟩
  | stuck hstuck _ =>
    rw [hfresh] at hstuck
    cases hr.unique hstuck
  | deep _ hd => exact .inr ⟨⟨_, rfl⟩, hd r.height (opening_affordable r f s.coming)⟩

/-- A call that is read ends without an error, whatever stands above it. -/
theorem Executes.call_reads {res : Result} (h : Executes strategy limit d (.call r f q) s res)
    (ht : Tracks s p) (hs : s.stream.Proper) (hrec : s.recovering = false) (hf : s.failure = none)
    (hr : Reads (opening r f s.coming) (.fresh r) s.coming (.read u w))
    (hd : r.height + 1 + 4 * s.coming.length ≤ d) :
    ∃ d' t, Executes strategy limit d' (opening r f s.coming) (s.enter (.ofRule r) f) (.ok () t) ∧
      Executes strategy limit d q t.leave res := by
  have hc := ht.enter_onCourse hs hrec hf r f
  cases h with
  | @call d' _ _ _ _ _ _ _ _ hb hcl hp =>
    rcases hc.reads_ok hb hr with ⟨t, rfl⟩ | ⟨⟨t, rfl⟩, -⟩
    · cases hcl
      exact ⟨d', t, hb, hp⟩
    · cases hcl
  | callStop _ hb hcl =>
    rcases hc.reads_ok hb hr with ⟨t, rfl⟩ | ⟨-, hlt⟩
    · cases hcl
    · omega
  | deep => omega

/-- The body of a rule that ends. -/
theorem OnCourse.body_ok {res : Result} (h : OnCourse s x p)
    (he : Executes strategy limit d (opening r f s.coming) (s.enter (.ofRule r) f) res)
    (hr : Reads (opening r f s.coming) (.fresh r) s.coming (.read u w))
    (hres : closing res = .ok () t) : ∃ t', res = .ok () t' ∧ t = t'.leave := by
  rcases (h.enter r f).reads_ok he hr with ⟨t', rfl⟩ | ⟨⟨t', rfl⟩, -⟩
  · cases hres
    exact ⟨t', rfl, rfl⟩
  · cases hres

/-- **What is read without an error is built by both**, up to the places of nodes and tokens. -/
theorem Reads.parallel (h : Reads q u w o) (ho : o = .read u' v)
    (hp : Parallel k n k' n' s x p s' x' p') (hlabel : x.label = u.label) (hw : s.coming = w)
    (he : Executes strategy limit d q s (.ok () t))
    (he' : Executes strategy' limit' d' q s' (.ok () t')) :
    ∃ y y', Parallel k n k' n' t y p t' y' p' ∧ y.label = u'.label ∧
      y.span.start = x.span.start ∧ t.coming = v ∧ s.arena.SameErrors t.arena := by
  -- Both executions are inverted along what is read: neither can stop, or go on elsewhere.
  induction h generalizing s x p s' x' p' t t' d d' u' v with
  | done =>
    cases ho
    cases he
    cases he'
    exact ⟨x, x', hp, hlabel, rfl, hw, .refl _⟩
  | step ha _ ih =>
    rw [← hw] at ha
    obtain ⟨s₁, x₁, s₁', x₁', hrun, hrun', hp₁, hlabel₁, hstart, hcoming, hsame⟩ :=
      hp.step strategy strategy' hlabel ha
    obtain ⟨y, y', hpy, hlabely, hstarty, hcomingy, hsamey⟩ :=
      ih ho hp₁ hlabel₁ hcoming (he.step_inv hrun) (he'.step_inv hrun')
    exact ⟨y, y', hpy, hlabely, hstarty.trans hstart, hcomingy, hsame.trans hsamey⟩
  | stuck => cases ho
  | @call r f q u u₁ w w₁ o hr _ ihr ihp =>
    subst hw
    cases he with
    | call _ hb hc hq =>
      cases he' with
      | call _ hb' hc' hq' =>
        -- The rule ends in both, since it is read; the place where they go on is the same again.
        obtain ⟨t₁, rfl, rfl⟩ := hp.left.body_ok hb hr hc
        obtain ⟨t₁', rfl, rfl⟩ := hp.right.body_ok hb' (hp.coming_eq ▸ hr) hc'
        rw [hp.coming_eq] at hb'
        obtain ⟨y₁, y₁', hp₁, -, -, hcoming, hsame⟩ := ihr rfl (hp.enter r f) rfl rfl hb hb'
        have hcoming : t₁.leave.coming = w₁ := by
          rw [coming_leave, hcoming]
        obtain ⟨y, y', hpy, hlabely, hstart, hcomingy, hsamey⟩ :=
          ihp ho (hp.leave hp₁) hlabel hcoming hq hq'
        have hcall : s.arena.SameErrors t₁.leave.arena :=
          ((Arena.sameErrors_openNode ..).trans hsame).trans (sameErrors_leave t₁)
        exact ⟨y, y', hpy, hlabely, hstart, hcomingy, hcall.trans hsamey⟩
  | callStuck => cases ho
  | go _ ih =>
    subst hw
    cases he with
    | go hq =>
      cases he' with
      | go hq' =>
        rw [hp.coming_eq] at hq'
        obtain ⟨y, y', hy⟩ := ih ho hp hlabel rfl hq hq'
        exact ⟨y, y', hy⟩
      | idle hrec =>
        rw [hp.right.recovering_eq] at hrec
        cases hrec
    | idle hrec =>
      rw [hp.left.recovering_eq] at hrec
      cases hrec

end Parser

end PipeQuery

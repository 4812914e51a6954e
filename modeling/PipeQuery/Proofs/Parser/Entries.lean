import PipeQuery.Parser.Source
import PipeQuery.Proofs.Parser.Endings
import PipeQuery.Proofs.Parser.Simulation

/-!
# The entries of the parser

A parse has a tree if it comes to the end of the input, whatever errors it meets on its way there.
All tokens are then in the tree, at the places that they have in the input.

## Main results

* `query_calls`, `standalone_calls`: how the entries start
* `statement_ends`, `expression_ends`: how a parse comes to its tree
* `statement_tree`: the tree of a query
* `expression_tree`: the tree of an expression that stands alone
* `parse_root`: the root of either
-/

namespace PipeQuery

namespace Parser

open Token (Kind KindSet)

variable {strategy : Strategy} {limit d : Nat} {r : Rule} {f : Nat} {s s' : State} {x y : Site}
  {p : Path} {res : Result} {options : Options} {t : ParseTree} {tokens : List Token}

/-- What holds of the tree of a parse can be computed. -/
instance decidableExistsTree (res : Except Failure ParseTree) (p : ParseTree → Prop)
    [DecidablePred p] : Decidable (∃ t, res = .ok t ∧ p t) :=
  match res with
  | .ok t => decidable_of_iff (p t) ⟨fun h => ⟨t, rfl, h⟩, fun ⟨_, ht, h⟩ => Except.ok.inj ht ▸ h⟩
  | .error _ => .isFalse fun ⟨_, ht, _⟩ => by cases ht

instance decidableEqError (res : Except Failure ParseTree) (failure : Failure) :
    Decidable (res = .error failure) :=
  match res with
  | .ok _ => .isFalse fun h => by cases h
  | .error failure' => decidable_of_iff (failure' = failure) ⟨congrArg _, Except.error.inj⟩

theorem finish_eq_ok (h : finish s = .ok t) :
    s.failure = none ∧ s.arena.finish s.stream.tokens = some t := by
  rw [finish] at h
  split at h
  · cases h
  · rename_i hf ha
    cases h
    exact ⟨hf, ha⟩
  · cases h

/-- A tree has the nodes of the arena. -/
theorem nodes_of_finish (h : finish s = .ok t) :
    t.nodes = s.arena.nodes ∧ t.reported = s.arena.reported := by
  obtain ⟨-, ha⟩ := finish_eq_ok h
  rw [Arena.finish] at ha
  cases hroot : s.arena.root with
  | none => rw [hroot] at ha; cases ha
  | some root =>
    rw [hroot] at ha
    cases ha
    exact ⟨rfl, rfl⟩

theorem endState_eq (entry : Run Unit) (s : State) : endState entry s = Result.state (entry s) := by
  rw [endState]
  cases entry s <;> rfl

theorem run_eq (entry : Run Unit) (tokens : List Token) :
    run entry tokens =
      if (TokenStream.ofList tokens).isEmpty then .error .emptyInput
      else finish (Result.state (entry (.start (.ofList tokens)))) := by
  rw [run, endState_eq]

/-- A parse that has a tree has not halted. -/
theorem finish_ends (h : Ends res) (hr : ∀ s', res ≠ .error .resync s')
    (ht : finish res.state = .ok t) :
    ∃ s, res = .ok () s ∧ s.arena.finish s.stream.tokens = some t := by
  obtain ⟨hf, ha⟩ := finish_eq_ok ht
  cases res with
  | ok _ s => exact ⟨s, rfl, ha⟩
  | error a s =>
    cases a with
    | resync => exact absurd rfl (hr s)
    | halt =>
      have hsome : s.failure.isSome = true := h
      rw [show s.failure = none from hf] at hsome
      cases hsome

theorem finish_closing (h : Ends res) (ht : finish (Result.state (closing res)) = .ok t) :
    ∃ s, closing res = .ok () s ∧ s.arena.finish s.stream.tokens = some t :=
  finish_ends (closing_ends h).1 (closing_ends h).2 ht

/-! ## Up to the end of the input -/

/-- Dropping everything leads to the end of the input. -/
theorem discardUntil_coming (hs : s.stream.Proper) {stop : KindSet}
    (hstop : ∀ k, stop.contains k = false) (id : NodeId) {n : Nat} (hn : s.coming.length ≤ n) :
    (s.discardUntil id stop n).coming = [] := by
  -- The counter does not stop the loop: it is no less than the number of tokens to come.
  induction n generalizing s with
  | zero => exact List.length_eq_zero_iff.mp (Nat.le_zero.mp hn)
  | succ n ih =>
    rw [State.discardUntil]
    cases hw : s.coming with
    | nil =>
      have hk : s.kindAt 1 = .endOfInput := by rw [kindAt_one hs, hw, next_nil]
      rw [hk, if_pos (by simp)]
      exact hw
    | cons k w =>
      obtain ⟨hs', hw', -⟩ := hs.consume hw
      have hk : s.kindAt 1 ≠ .endOfInput := by
        rw [kindAt_one hs, hw, next_cons]
        exact ne_of_coming hs hw
      rw [if_neg (by simp [hk, hstop])]
      refine ih hs' ?_
      rw [hw] at hn
      rw [State.coming]
      show s.stream.consume.coming.length ≤ n
      rw [hw']
      exact Nat.le_of_succ_le_succ hn

/-- The tokens dropped are taken up by the node that they are dropped into. -/
theorem discardUntil_builds (hb : s.arena.Builds (x :: p)) (stop : KindSet) (n : Nat) :
    ∃ y, (s.discardUntil x.id stop n).arena.Builds (y :: p) ∧ y.id = x.id ∧ y.span = x.span ∧
      (s.stream.Proper → Site.UpTo x s.cursor →
        Site.UpTo y (s.discardUntil x.id stop n).cursor) := by
  refine (discardUntil_induction n (P := fun t => (s.stream.Proper → t.stream.Proper) ∧
    ∃ y, t.arena.Builds (y :: p) ∧ y.id = x.id ∧ y.span = x.span ∧
      (s.stream.Proper → Site.UpTo x s.cursor → Site.UpTo y t.cursor))
    ⟨id, x, hb, rfl, rfl, fun _ h => h⟩ ?_).2
  rintro t ⟨hproper, y, hy, hid, hspan, hup⟩ hk -
  have hpush : (t.discard x.id).arena.Builds (y.add (.discarded t.cursor) :: p) := by
    rw [← hid]
    exact hy.push (x := .discarded t.cursor) fun _ => rfl
  refine ⟨fun hs => (advances_consume _).proper (hproper hs), _, hpush, hid, hspan, fun hs h => ?_⟩
  have hc : (t.discard x.id).cursor = t.cursor + 1 := cursor_consume (hproper hs) hk
  rw [hc]
  exact (hup hs h).append ⟨t.cursor + 1, ⟨rfl, rfl⟩, rfl⟩

/-- Behind the last open rule there is no place to go on but the end of the input. -/
theorem not_resync (h : s.frames.map Frame.rule = [.singleStatement]) (k : Kind) :
    s.resyncSet.contains k = false := by
  have hset : s.resyncSet =
      ((s.frames.map Frame.rule).foldl (fun set (r : Rule) => set ∪ r.follow) ∅).erase .endOfInput := by
    rw [State.resyncSet, List.foldl_map]
  rw [hset, h]
  revert k
  decide

/-- Where nothing but the end of the input can follow, looking for a place to go on ends the
parse. -/
theorem recover_halts (hs : s.stream.Proper) (hframes : s.frames.map Frame.rule = [.singleStatement])
    (hne : s.kindAt 1 ≠ .endOfInput) : recover s ≠ .ok () s' := by
  have hadv := discardUntil_advances s.node s.resyncSet s.stream.remaining
    { s with recovering := true }
  have hnil := discardUntil_coming (s := { s with recovering := true }) hs (not_resync hframes)
    s.node (n := s.stream.remaining) (Nat.le_of_eq hs.remaining_eq.symm)
  rw [recover]
  generalize State.discardUntil s.node s.resyncSet s.stream.remaining
    { s with recovering := true } = t at hadv hnil
  have hs' : t.stream.Proper := hadv.proper hs
  have hk : t.kindAt 1 = .endOfInput := by rw [kindAt_one hs', hnil, next_nil]
  -- There was a token to drop, so the cursor has moved.
  have hlt : s.cursor < t.cursor := by
    have hadd := hs.cursor_add
    have hadd' := hs'.cursor_add
    have hsize : t.stream.size = s.stream.size := congrArg Array.size hadv.tokens_eq
    have hpos : s.stream.coming ≠ [] := by
      intro hw
      rw [kindAt_one hs, State.coming, hw] at hne
      exact hne rfl
    have hlen := List.length_pos_iff.mpr hpos
    rw [State.coming] at hnil
    rw [hnil, hsize] at hadd'
    rw [State.cursor, State.cursor]
    simp only [List.length_nil] at hadd'
    omega
  simp only [hk, hlt, decide_true, Bool.and_self, if_true]
  split <;> simp

/-! ## Queries -/

/-- A statement is a query and the end of the input. -/
theorem singleStatement_eq (sub : Rule → Nat → Run Unit) (s : State) :
    singleStatement strategy sub s =
      match sub .query 0 s with
      | .ok () s => expectOneOf strategy (.ofList [.endOfInput]) s
      | .error a s => .error a s := by
  show EStateM.bind (sub .query 0) _ s = _
  rw [EStateM.bind]
  cases sub .query 0 s <;> rfl

/-- The state at the start of a statement. -/
def opened (tokens : List Token) : State :=
  (State.start (.ofList tokens)).enter (.ofRule .singleStatement) 0

theorem opened_tracks (tokens : List Token) :
    Tracks (opened tokens) [⟨0, .singleStatement, ⟨0, 0⟩, none, []⟩] :=
  Tracks.enter (s := .start (.ofList tokens)) ⟨Arena.builds_empty, rfl⟩ (.ofRule .singleStatement) 0

theorem opened_proper (tokens : List Token) : (opened tokens).stream.Proper :=
  TokenStream.proper_ofList tokens

/-- A statement calls its query. -/
theorem query_calls (options : Options) (d : Nat) (tokens : List Token) :
    Calls options.strategy options.maxDepth d .query 0 (opened tokens)
      (parseRule options d .query 0 (opened tokens)) :=
  parseRule_calls options (by decide) (opened_proper tokens)

theorem opened_going (tokens : List Token) : (opened tokens).Going :=
  ⟨rfl, fun h => by cases h⟩

theorem parseRule_statement (options : Options) (d : Nat) (tokens : List Token) :
    parseRule options (d + 1) .singleStatement 0 (.start (.ofList tokens)) =
      closing (match parseRule options d .query 0 (opened tokens) with
        | .ok () s => expectOneOf options.strategy (.ofList [.endOfInput]) s
        | .error a s => .error a s) := by
  rw [parseRule, within_eq, ← singleStatement_eq]
  rfl

/-- One token that is left behind the query of a statement is dropped. -/
theorem stray_end {e : Option SyntaxError} {cs : List Subtree} {expected : KindSet} {u : State}
    (ht : Tracks s [⟨0, .singleStatement, ⟨0, 0⟩, e, cs⟩]) (hs : s.stream.Proper)
    (hne : s.kindAt 1 ≠ .endOfInput) (hend : s.kindAt 2 = .endOfInput)
    (hr : reportHere strategy .extraneous expected s = .ok () u) :
    (∃ e, Tracks (u.discard u.node)
        [⟨0, .singleStatement, ⟨0, 0⟩, e, cs ++ [.discarded s.cursor]⟩]) ∧
      (u.discard u.node).cursor = s.cursor + 1 ∧ (u.discard u.node).coming = [] ∧
      Advances s.stream (u.discard u.node).stream := by
  obtain ⟨hstream, -, -⟩ := reportHere_ok hr
  obtain ⟨e', hu⟩ := reportHere_tracks hr ht
  -- Behind the one token that is dropped only the end of the input is left.
  obtain ⟨k, w, hw⟩ : ∃ k w, s.coming = k :: w := by
    refine List.exists_cons_of_ne_nil fun hw => ?_
    rw [kindAt_one hs, hw] at hne
    exact hne rfl
  have hw₁ : s.kindAt 2 = next w := by rw [kindAt_two hs, hw, List.tail_cons]
  obtain ⟨hs', hw', hc⟩ := hs.consume hw
  have hconsume : (u.discard u.node).stream = s.stream.consume :=
    congrArg TokenStream.consume hstream
  have hcursor : u.cursor = s.cursor := congrArg TokenStream.cursor hstream
  refine ⟨⟨e', hcursor ▸ hu.discard⟩, ?_, ?_, ?_⟩
  · rw [State.cursor, hconsume]
    exact hc
  · rw [State.coming, hconsume]
    exact hs'.coming_eq_nil (hw' ▸ hw₁ ▸ hend)
  · rw [hconsume]
    exact advances_consume s.stream

/-- Nothing can go on behind a statement, so an error that it ends with is the end of the parse. -/
theorem closing_fail_ne_ok (hs : s.stream.Proper)
    (hframes : s.frames.map Frame.rule = [.singleStatement]) (hne : s.kindAt 1 ≠ .endOfInput)
    (cause : SyntaxError.Cause) (expected : KindSet) :
    closing (fail strategy cause expected s) ≠ .ok () s' := by
  intro h
  cases hfail : fail strategy cause expected s with
  | ok _ u => exact fail_ne_ok hfail
  | error a u =>
    rw [hfail] at h
    cases a with
    | halt => cases h
    | resync =>
      obtain ⟨hstream, hu, -⟩ := reportHere_ok (fail_resync hfail)
      rw [closing] at h
      split at h
      · rename_i hrecover
        refine recover_halts (hstream ▸ hs) (hu ▸ hframes) ?_ hrecover
        rw [kindAt_eq_of_stream hstream]
        exact hne
      · cases h

/-- The end of the input is matched by the root, when all tokens before it are in the tree. -/
theorem expect_end {e : Option SyntaxError} {cs : List Subtree}
    (ht : Tracks s [⟨0, .singleStatement, ⟨0, 0⟩, e, cs⟩]) (hs : s.stream.Proper)
    (hframes : s.frames.map Frame.rule = [.singleStatement])
    (h : closing (expectOneOf strategy (.ofList [.endOfInput]) s) = .ok () s') :
    ∃ u e cs', s' = u.consume.leave ∧ Tracks u [⟨0, .singleStatement, ⟨0, 0⟩, e, cs'⟩] ∧
      (Subtree.AllTile cs 0 s.cursor → Subtree.AllTile cs' 0 u.cursor) ∧ u.coming = [] ∧
      Advances s.stream u.stream ∧ cs'.filter Subtree.isNode = cs.filter Subtree.isNode := by
  rw [expectOneOf_eq] at h
  simp only [KindSet.contains_ofList, List.mem_singleton, decide_eq_true_eq, Bool.and_eq_true,
    ne_eq] at h
  split at h
  · rename_i hk
    cases h
    exact ⟨s, e, cs, rfl, ht, id, hs.coming_eq_nil (kindAt_one hs ▸ hk), .refl _, rfl⟩
  · rename_i hne
    split at h
    · rename_i hk
      cases hr : reportHere strategy .extraneous (.ofList [.endOfInput]) s with
      | error a v =>
        rw [hr] at h
        obtain rfl := report_error hr
        cases h
      | ok _ v =>
        rw [hr] at h
        cases h
        -- The token that is in the way is dropped into the root, which is no node.
        obtain ⟨⟨e', hv⟩, hcursor, hnil, hadv⟩ := stray_end ht hs hne hk.2 hr
        refine ⟨v.discard v.node, e', _, rfl, hv, fun hup => ?_, hnil, hadv, ?_⟩
        · rw [hcursor]
          exact hup.append ⟨s.cursor + 1, ⟨rfl, rfl⟩, rfl⟩
        · rw [List.filter_append]
          exact List.append_nil _
    · exact absurd h (closing_fail_ne_ok hs hframes hne _ _)

/-- The tree of a statement whose query is over: its root has all tokens before the end of the input
below it, the end of the input last, and no more nodes than before. -/
theorem ended_tree {e : Option SyntaxError} {cs : List Subtree}
    (ht : Tracks s [⟨0, .singleStatement, ⟨0, 0⟩, e, cs⟩]) (hs : s.stream.Proper)
    (hframes : s.frames.map Frame.rule = [.singleStatement])
    (h : closing (expectOneOf strategy (.ofList [.endOfInput]) s) = .ok () s')
    (hfinish : s'.arena.finish s'.stream.tokens = some t) :
    ∃ e cs' n, t.IsWhole (.node 0 .singleStatement ⟨0, n⟩ e (cs' ++ [.token n])) ∧
      (Subtree.AllTile cs 0 s.cursor → Subtree.AllTile cs' 0 n) ∧
      t.tokens = s.stream.tokens ∧ n + 1 = t.tokens.size ∧
      cs'.filter Subtree.isNode = cs.filter Subtree.isNode := by
  obtain ⟨u, e, cs, rfl, hu, htile, hnil, hend, hnodes⟩ := expect_end ht hs hframes h
  have hpu : u.stream.Proper := hend.proper hs
  -- The end of the input is added to the root, but the stream stays at it.
  have hstay : u.consume.stream = u.stream := hpu.consume_of_nil hnil
  have hcursor : u.consume.cursor = u.cursor := by rw [State.cursor, hstay, State.cursor]
  obtain ⟨hwhole, htokens⟩ := hu.consume.leave_root.isWhole hfinish
  rw [stream_leave, hstay, hend.tokens_eq] at htokens
  rw [hcursor] at hwhole
  refine ⟨e, cs, u.cursor, ?_, htile, htokens, ?_, hnodes⟩
  · simpa [Site.subtree, Site.close, Path.add] using hwhole
  · have hadd := hpu.cursor_add
    rw [← State.coming, hnil, TokenStream.size, hend.tokens_eq] at hadd
    rw [htokens]
    exact hadd

/-- A parse of a query that has a tree has parsed the query and matched the end of the input. -/
theorem statement_ends (h : parseTokens options tokens = .ok t) :
    ∃ d u s, parseRule options d .query 0 (opened tokens) = .ok () u ∧
      closing (expectOneOf options.strategy (.ofList [.endOfInput]) u) = .ok () s ∧
      s.arena.finish s.stream.tokens = some t := by
  rw [parseTokens, run_eq] at h
  split at h
  · cases h
  cases hd : options.maxDepth with
  | zero =>
    rw [hd, parseRule, within_eq] at h
    obtain ⟨_, hs, -⟩ := finish_closing (failTooDeep_ends _ _) h
    cases hs
  | succ d =>
    rw [hd, parseRule_statement] at h
    have hcall := query_calls options d tokens
    obtain ⟨hends, hresync⟩ := hcall.ends (opened_going tokens)
    -- A parse that was ended has no tree, and no rule is left with an error in hand.
    cases hq : parseRule options d .query 0 (opened tokens) with
    | error a u =>
      rw [hq] at h hends hresync
      cases a with
      | resync => exact absurd rfl (hresync u)
      | halt =>
        obtain ⟨_, hs, -⟩ := finish_closing hends h
        cases hs
    | ok _ u =>
      rw [hq] at h hends
      obtain ⟨s, hs, ht⟩ := finish_closing (expectOneOf_ends hends options.strategy _) h
      exact ⟨d, u, s, hq, hs, ht⟩

/-- **The tree of a query**: its root has all tokens before the end of the input below it, and the
end of the input last. -/
theorem statement_tree (h : parseTokens options tokens = .ok t) :
    ∃ e cs n, t.IsWhole (.node 0 .singleStatement ⟨0, n⟩ e (cs ++ [.token n])) ∧
      Subtree.AllTile cs 0 n ∧ t.tokens = (TokenStream.ofList tokens).tokens ∧
      n + 1 = t.tokens.size := by
  obtain ⟨d, u, s, hq, hs, ht⟩ := statement_ends h
  have hproper := opened_proper tokens
  have hcall := query_calls options d tokens
  have hevolves := hcall.evolves hproper
  obtain ⟨v, hv, hnest⟩ := hcall.exists_nest hproper
  rw [hq] at hv hevolves
  obtain rfl : u = v.leave := hv
  obtain ⟨c, hc, hsub⟩ := hnest.tracks_nest (opened_tracks tokens)
  have hup : Subtree.AllTile [c] 0 v.leave.cursor := by
    rw [cursor_leave]
    exact ⟨_, hsub hproper, rfl⟩
  have hadv : Advances (opened tokens).stream v.leave.stream := hevolves.advances
  obtain ⟨e, cs, n, hwhole, htile, htokens, hn, -⟩ :=
    ended_tree hc (hadv.proper hproper) hevolves.frames_eq hs ht
  exact ⟨e, cs, n, hwhole, htile hup, htokens.trans hadv.tokens_eq, hn⟩

/-! ## Expressions -/

/-- All tokens to come dropped into a node, which is closed behind them. -/
def State.dropRest (s : State) (id : NodeId) : State :=
  let s := s.discardUntil id ∅ s.stream.remaining
  { s with arena := s.arena.close id s.cursor }

/-- The error of what stands behind an expression. -/
def State.trailingError (s : State) : SyntaxError :=
  ⟨.mismatched, .booleanExpression, s.cursor, s.stream.peek 1, .ofList [.endOfInput]⟩

/-- What stands behind an expression is an error, and is dropped. -/
def trailing (strategy : Strategy) : Run Unit := fun s =>
  if s.kindAt 1 ≠ .endOfInput then
    match report strategy (s.arena.root.getD 0) s.trailingError s with
    | .error a s' => .error a s'
    | .ok () s' => .ok () (s'.dropRest (s.arena.root.getD 0))
  else .ok () s

theorem standalone_eq (options : Options) (floor : Nat) (s : State) :
    standalone options floor s =
      match parseRule options options.maxDepth .booleanExpression floor s with
      | .ok () s => trailing options.strategy s
      | .error a s => .error a s := by
  show EStateM.bind (parseRule options options.maxDepth .booleanExpression floor) _ s = _
  rw [EStateM.bind]
  cases parseRule options options.maxDepth .booleanExpression floor s with
  | error a s => rfl
  | ok _ s =>
    show _ = trailing options.strategy s
    by_cases hk : s.kindAt 1 ≠ .endOfInput
    · rw [trailing, if_pos hk]
      exact congrFun (if_pos hk) s
    · rw [trailing, if_neg hk]
      exact congrFun (if_neg hk) s

theorem trailing_ends (h : s.Going) (strategy : Strategy) :
    Ends (trailing strategy s) ∧ ∀ s', trailing strategy s ≠ .error .resync s' := by
  rw [trailing]
  split
  · have hreport := report_ends h strategy (s.arena.root.getD 0) s.trailingError
    cases hr : report strategy (s.arena.root.getD 0) s.trailingError s with
    | error a u =>
      rw [hr] at hreport
      obtain rfl := report_error hr
      exact ⟨hreport, fun _ hs => by cases hs⟩
    | ok _ u =>
      rw [hr] at hreport
      obtain ⟨hf, hrec, he⟩ := discardUntil_keeps (s.arena.root.getD 0) ∅ u.stream.remaining u
      refine ⟨⟨hf.trans hreport.failure_eq, fun hs => ?_⟩, fun _ hs => by cases hs⟩
      exact (congrArg Option.isSome he).trans (hreport.lastError (hrec ▸ hs))
  · exact ⟨h, fun _ hs => by cases hs⟩

theorem dropRest_keepsErrors (s : State) (id : NodeId) :
    KeepsErrors s.arena (s.dropRest id).arena :=
  (discardUntil_keepsErrors ..).trans (keepsErrors_modify _ _ fun _ h => h)

theorem trailing_keepsErrors (strategy : Strategy) (s : State) :
    KeepsErrors s.arena (Result.state (trailing strategy s)).arena := by
  rw [trailing]
  split
  · have hreport := report_keepsErrors strategy (s.arena.root.getD 0) s.trailingError s
    cases hr : report strategy (s.arena.root.getD 0) s.trailingError s with
    | error a u => rwa [hr] at hreport
    | ok _ u =>
      rw [hr] at hreport
      exact hreport.trans (dropRest_keepsErrors ..)
  · exact .refl _

/-- What stands behind an expression is the first error, if there was none before. -/
theorem trailing_errs (hb : s.arena.Builds [x]) (strategy : Strategy) (hs : s.stream.Proper)
    (hr : s.recovering = false) (hf : s.failure = none) (hk : s.kindAt 1 ≠ .endOfInput) :
    Errs strategy s s.coming (trailing strategy s) := by
  have hroot : s.arena.root.getD 0 = x.id := by rw [hb.root_eq]; rfl
  have hreport := report_errs hb strategy hs hr hf (e := s.trailingError) rfl
  rw [trailing, if_pos hk, hroot]
  cases hrun : report strategy x.id s.trailingError s with
  | error a u => rwa [hrun] at hreport
  | ok _ u =>
    rw [hrun] at hreport
    exact hreport.trans_keeps (dropRest_keepsErrors ..)

theorem dropRest_builds (hb : s.arena.Builds [x]) (hs : s.stream.Proper)
    (hup : Site.UpTo x s.cursor) :
    ∃ y, (s.dropRest x.id).arena.Builds [y] ∧
      y.subtree.Tiles x.span.start (s.dropRest x.id).cursor ∧ (s.dropRest x.id).coming = [] := by
  obtain ⟨y, hy, hid, hspan, hup'⟩ := discardUntil_builds hb ∅ s.stream.remaining
  refine ⟨y.close (s.dropRest x.id).cursor, ?_, ?_, ?_⟩
  · have hclose := hy.close (s.discardUntil x.id ∅ s.stream.remaining).cursor
    rw [hid] at hclose
    exact hclose
  · have htiles := (hup' hs hup).tiles
    rw [hspan] at htiles
    exact htiles
  · exact discardUntil_coming hs KindSet.contains_empty x.id (Nat.le_of_eq hs.remaining_eq.symm)

/-- The root takes up what stands behind an expression. -/
theorem trailing_ok (hb : s.arena.Builds [x]) (hs : s.stream.Proper)
    (hup : x.subtree.Tiles x.span.start s.cursor) (h : trailing strategy s = .ok () s') :
    ∃ y, s'.arena.Builds [y] ∧ y.subtree.Tiles x.span.start s'.cursor ∧ s'.coming = [] ∧
      Advances s.stream s'.stream := by
  have hroot : s.arena.root.getD 0 = x.id := by rw [hb.root_eq]; rfl
  rw [trailing, hroot] at h
  split at h
  · -- Something is left, so the root is told of it, and takes up all of it as dropped tokens.
    cases hr : report strategy x.id s.trailingError s with
    | error a u => rw [hr] at h; cases h
    | ok _ u =>
      rw [hr] at h
      cases h
      obtain ⟨hstream, -, -⟩ := report_ok hr
      have hbu := builds_report hb strategy s.trailingError
      rw [hr] at hbu
      obtain ⟨e, hbu⟩ := hbu
      have hcursor : u.cursor = s.cursor := by rw [State.cursor, hstream, State.cursor]
      obtain ⟨y, hy, htiles, hnil⟩ := dropRest_builds hbu (hstream ▸ hs) (hcursor ▸ hup.2)
      refine ⟨y, hy, htiles, hnil, ?_⟩
      rw [← hstream]
      exact discardUntil_advances x.id ∅ u.stream.remaining u
  · rename_i hk
    cases h
    exact ⟨x, hb, hup, hs.coming_eq_nil (kindAt_one hs ▸ Decidable.not_not.mp hk), .refl _⟩

theorem start_proper (tokens : List Token) : (State.start (.ofList tokens)).stream.Proper :=
  TokenStream.proper_ofList tokens

/-- An expression is called by no rule. -/
theorem standalone_calls (options : Options) (floor : Nat) (tokens : List Token) :
    Calls options.strategy options.maxDepth options.maxDepth .booleanExpression floor
      (.start (.ofList tokens))
      (parseRule options options.maxDepth .booleanExpression floor (.start (.ofList tokens))) :=
  parseRule_calls options (by decide) (start_proper tokens)

/-- The state at the start of an expression. -/
def openedExpression (tokens : List Token) (floor : Nat) : State :=
  (State.start (.ofList tokens)).enter (.ofRule .booleanExpression) floor

theorem openedExpression_tracks (tokens : List Token) (floor : Nat) :
    Tracks (openedExpression tokens floor)
      [⟨0, .ofRule .booleanExpression, ⟨0, 0⟩, none, []⟩] :=
  Tracks.enter (s := .start (.ofList tokens)) ⟨Arena.builds_empty, rfl⟩ (.ofRule .booleanExpression)
    floor

/-- A parse of an expression that has a tree has parsed the expression and dropped what stands
behind it. -/
theorem expression_ends {floor : Nat} (h : parseExpressionTokens options floor tokens = .ok t) :
    ∃ u s, parseRule options options.maxDepth .booleanExpression floor (.start (.ofList tokens)) =
        .ok () u ∧
      trailing options.strategy u = .ok () s ∧ s.arena.finish s.stream.tokens = some t := by
  rw [parseExpressionTokens, run_eq] at h
  split at h
  · cases h
  rw [standalone_eq] at h
  obtain ⟨hends, hresync⟩ :=
    (standalone_calls options floor tokens).ends ⟨rfl, fun h => by cases h⟩
  cases hq : parseRule options options.maxDepth .booleanExpression floor
      (.start (.ofList tokens)) with
  | error a u =>
    rw [hq] at h hends hresync
    obtain ⟨_, hs, -⟩ := finish_ends hends hresync h
    cases hs
  | ok _ u =>
    rw [hq] at h hends
    obtain ⟨htrailing, hne⟩ := trailing_ends hends options.strategy
    obtain ⟨s, hs, ht⟩ := finish_ends htrailing hne h
    exact ⟨u, s, rfl, hs, ht⟩

/-- **The tree of an expression**: its root has all tokens before the end of the input below it. -/
theorem expression_tree {floor : Nat} (h : parseExpressionTokens options floor tokens = .ok t) :
    ∃ x n, t.IsWhole x ∧ x.Tiles 0 n ∧ t.tokens = (TokenStream.ofList tokens).tokens ∧
      n + 1 = t.tokens.size := by
  obtain ⟨u, s, hq, hs, ht⟩ := expression_ends h
  have hproper := start_proper tokens
  obtain ⟨v, hv, hnest⟩ := (standalone_calls options floor tokens).exists_nest hproper
  rw [hq] at hv
  obtain rfl : u = v.leave := hv
  obtain ⟨y, hy, hstart, hup⟩ := hnest.tracks (openedExpression_tracks tokens floor)
  have hup : Site.UpTo y v.cursor := hup hproper rfl
  have hadv : Advances (TokenStream.ofList tokens) v.leave.stream := by
    rw [stream_leave]
    exact hnest.advances
  have htiles : (y.close v.cursor).subtree.Tiles y.span.start v.leave.cursor := by
    rw [cursor_leave]
    exact hup.tiles
  -- The node of the expression is the root, and has been left when the rest is dropped.
  obtain ⟨z, hz, hzt, hnil, hend⟩ :=
    trailing_ok hy.leave_root (hadv.proper hproper) htiles hs
  have hend := hadv.trans hend
  obtain ⟨hwhole, htokens⟩ := hz.isWhole ht
  have hstart : y.span.start = 0 := hstart
  refine ⟨_, s.cursor, hwhole, ?_, htokens.trans hend.tokens_eq, ?_⟩
  · rw [← hstart]
    exact hzt
  · have hadd := (hend.proper hproper).cursor_add
    rw [← State.coming, hnil] at hadd
    rw [htokens]
    exact hadd

/-! ## Roots -/

/-- The root of a tree has all tokens before the end of the input below it, and perhaps that end
behind them. -/
theorem parse_root (entry : Entry) (h : entry.parse options tokens = .ok t) :
    ∃ l e cs, ∃ last : List Nat, ∃ n, t.IsWhole (.node t.root l ⟨0, n⟩ e (cs ++ last.map .token)) ∧
      Subtree.AllTile cs 0 n ∧ (∀ i ∈ last, i = n) ∧ t.tokens = (TokenStream.ofList tokens).tokens ∧
      n + 1 = t.tokens.size := by
  cases entry with
  | statement =>
    obtain ⟨e, cs, n, hx, htile, htokens, hn⟩ := statement_tree h
    obtain hroot : 0 = t.root := Slot.node.inj hx.slot_eq
    rw [← hroot]
    exact ⟨_, e, cs, [n], n, hx, htile, fun i hi => List.mem_singleton.mp hi, htokens, hn⟩
  | expression floor =>
    obtain ⟨x, n, hx, htiles, htokens, hn⟩ := expression_tree h
    obtain ⟨l, span, e, cs, rfl⟩ := hx.exists_root
    obtain ⟨rfl, htile⟩ := htiles
    refine ⟨l, e, cs, [], n, ?_, htile, fun i hi => (List.not_mem_nil hi).elim, htokens, hn⟩
    rwa [List.map_nil, List.append_nil]

end Parser

end PipeQuery

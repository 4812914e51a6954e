import PipeQuery.Proofs.Parser.Outer

/-!
# The acts of a parse

A parse is made of a few acts, and it is known of each of them in which states it is done: a token
is dropped only while the parse recovers, and an error is met at a node of its rule, by a token that
was not expected there. What is kept by all of these acts is kept by a parse.

## Main definitions

* `Meets`, `Hosts`: an error at the current token, and a node that it can be attached to
* `Unclosed`: the error of a missing bracket
* `Act`, `Acts`: what is done in a parse, and what a part of a parse is made of
* `Stands`: a state in the middle of a rule

## Main results

* `recover_acts`: looking for a place to go on
* `Executes.acts`, `Calls.acts`: what scripts and rules are made of
-/

namespace PipeQuery.Parser

open Token (Kind KindSet)
open Script

/-- An error at the current token, which does not expect this token. -/
structure Meets (s : State) (e : SyntaxError) : Prop where
  index_eq : e.index = s.cursor
  token_eq : e.token = s.stream.peek 1
  unexpected : e.expected.contains (s.kindAt 1) = false

/-- The error of a bracket that is missing at the end of the input. -/
structure Unclosed (e : SyntaxError) : Prop where
  kind_eq : e.token.kind = .endOfInput
  rule_eq : e.rule = .subqueryExpression
  expected_eq : e.expected = .ofList [.rightBracket]

/-- A bracket is missing at the end of the input only. -/
theorem Meets.kindAt_eq {s : State} {e : SyntaxError} (h : Meets s e) (he : Unclosed e) :
    s.kindAt 1 = .endOfInput := by
  rw [← he.kind_eq, h.token_eq]
  rfl

/-- The node `n` at `id` is of the rule `r`. It is open, or it is closed at the current token. -/
structure Hosts (s : State) (id : NodeId) (n : Node) (r : Rule) : Prop where
  node_eq : s.arena.nodes[id]? = some n
  rule_eq : n.label.rule = r
  start_le : n.span.start ≤ s.cursor
  stays : id ∈ s.frames.map Frame.node ∨ s.cursor ≤ n.span.stop

/-- The current token is dropped, since no open rule can go on with it. -/
structure State.Skips (s : State) : Prop where
  recovering_eq : s.recovering = true
  kind_ne : s.kindAt 1 ≠ .endOfInput
  not_resync : s.resyncSet.contains (s.kindAt 1) = false

/-- What is done in a parse. If `keeps`, an error is kept wherever it is met, unless the parse still
recovers from another, or a bracket is missing at the end of the input. -/
inductive Act (strategy : Strategy) (keeps : Prop) : State → State → Prop where
  | relabel {s : State} {label : Label} {n : Node} (hn : s.arena.nodes[s.node]? = some n)
    (hl : label.rule = n.label.rule) : Act strategy keeps s (s.relabel label)
  | wrap (s : State) (label : Label) : Act strategy keeps s (s.wrap label)
  | consume {s : State} (h : s.kindAt 1 ≠ .endOfInput) : Act strategy keeps s s.consume
  | report {s : State} {id : NodeId} {n : Node} {e : SyntaxError} (hn : Hosts s id n e.rule)
    (he : Meets s e)
    (hc : keeps → s.recovering = true ∨ Unclosed e ∨ n.error = none) :
    Act strategy keeps s (Result.state (report strategy id e s))
  | drop {s : State} {id : NodeId} (hid : id < s.arena.size) (h : s.Skips) :
    Act strategy keeps s (s.discard id)
  /-- A stray token is dropped, and the one behind it is matched. -/
  | stray {s : State} (hid : s.node < s.arena.size) (hr : s.recovering = true)
    (hk : s.kindAt 1 ≠ .endOfInput) (hk' : (s.discard s.node).kindAt 1 ≠ .endOfInput) :
    Act strategy keeps s (s.discard s.node).consume
  /-- The last token is dropped, and no place to go on is found. -/
  | giveUp {s : State} {id : NodeId} {e : SyntaxError} (h : s.Skips)
    (hk : (s.discard id).kindAt 1 = .endOfInput) (hl : s.lastError = some e) :
    Act strategy keeps s ({ s.discard id with lastError := none }.terminate (.unrecoverable e))
  | tooDeep (s : State) (limit : Nat) : Act strategy keeps s (Result.state (failTooDeep limit s))
  /-- A node is closed once more. -/
  | close (s : State) (id : NodeId) :
    Act strategy keeps s { s with arena := s.arena.close id s.cursor }

/-- What a part of a parse is made of. -/
inductive Acts (strategy : Strategy) (keeps : Prop) : State → State → Prop where
  | refl (s : State) : Acts strategy keeps s s
  | act {s s' : State} (h : Act strategy keeps s s') : Acts strategy keeps s s'
  | nest {s s' : State} {r : Rule} {floor : Nat}
    (h : Acts strategy keeps (s.enter (.ofRule r) floor) s') : Acts strategy keeps s s'.leave
  | trans {s s' s'' : State} (h : Acts strategy keeps s s') (h' : Acts strategy keeps s' s'') :
    Acts strategy keeps s s''

variable {strategy : Strategy} {limit d f : Nat} {r r' : Rule} {keeps tidy : Prop} {a : Slate}
  {m : Move} {p : Script} {s s' t u : State} {x y : Site} {path : Path} {res : Result}
  {set expected : KindSet} {cause : SyntaxError.Cause}

theorem Acts.trans_act (h : Acts strategy keeps s s') (h' : Act strategy keeps s' t) :
    Acts strategy keeps s t :=
  h.trans (.act h')

/-! ## Looking for a place to go on -/

theorem size_discard_lt {id : NodeId} (hid : id < s.arena.size) :
    id < (s.discard id).arena.size := by
  rw [State.discard, Arena.size_push]
  exact hid

/-- Tokens are dropped up to a place where some open rule can go on. If any token is dropped, there is
a last one. -/
theorem discardUntil_acts (strategy : Strategy) (keeps : Prop) (hr : s.recovering = true)
    {id : NodeId} (hid : id < s.arena.size) (n : Nat) :
    Acts strategy keeps s (s.discardUntil id s.resyncSet n) ∧
      (s.discardUntil id s.resyncSet n = s ∨
        ∃ u, Acts strategy keeps s u ∧ u.Skips ∧
          s.discardUntil id s.resyncSet n = u.discard id) := by
  refine (discardUntil_induction n (P := fun t =>
    (t.recovering = true ∧ id < t.arena.size ∧ t.resyncSet = s.resyncSet) ∧
      Acts strategy keeps s t ∧
        (t = s ∨ ∃ u, Acts strategy keeps s u ∧ u.Skips ∧ t = u.discard id))
    ⟨⟨hr, hid, rfl⟩, .refl s, .inl rfl⟩ ?_).2
  rintro t ⟨⟨hr, hid, hset⟩, ht, -⟩ hk hstop
  have hskips : t.Skips := ⟨hr, hk, hset ▸ hstop⟩
  exact ⟨⟨hr, size_discard_lt hid, hset⟩, ht.trans_act (.drop hid hskips),
    .inr ⟨t, ht, hskips, rfl⟩⟩

theorem recovering_self (hr : s.recovering = true) : { s with recovering := true } = s := by
  cases s
  cases hr
  rfl

/-- **Looking for a place to go on.** -/
theorem recover_acts (hr : s.recovering = true) (hid : s.node < s.arena.size) :
    Acts strategy keeps s (Result.state (recover s)) := by
  obtain ⟨hdrop, hlast⟩ := discardUntil_acts strategy keeps hr hid s.stream.remaining
  rw [recover, recovering_self hr]
  split
  · rename_i hif
    rw [Bool.and_eq_true, decide_eq_true_eq, decide_eq_true_eq] at hif
    obtain ⟨heof, hlt⟩ := hif
    split
    · -- Some token was dropped, and the parse gives up behind the last of them.
      rename_i e he
      rcases hlast with hstay | ⟨u, hu, hskips, heq⟩
      · rw [hstay] at hlt
        exact absurd hlt (Nat.lt_irrefl _)
      · rw [heq] at heof he
        rw [heq]
        exact hu.trans_act (.giveUp hskips heof he)
    · exact hdrop
  · exact hdrop

/-! ## In the middle of a rule -/

/-- What is known of the error of an open node. -/
def Slate.Holds (a : Slate) (s : State) (x : Site) : Prop :=
  match a with
  | clean => x.error = none
  | fresh => x.error = none ∨ s.recovering = true
  | marked => True

/-- A state in the middle of the rule `r`, which is at the node `x`. -/
structure Stands (r : Rule) (a : Slate) (s : State) (x : Site) (path : Path) : Prop where
  tracks : Tracks s (x :: path)
  proper : s.stream.Proper
  start_le : x.span.start ≤ s.cursor
  rule_eq : x.label.rule = r
  frames_eq : ∃ rest, s.frames.map Frame.rule = r :: rest ∧
    (r.isOuter = true → ∀ r' ∈ rest, r'.isOuter = true)
  holds : a.Holds s x

/-- What a part of the rule `r` is made of, and that the rest `p` of its script is careful where it
goes on. -/
structure Acted (strategy : Strategy) (keeps : Prop) (r : Rule) (tidy : Prop) (path : Path)
    (p : Script) (s : State) (res : Result) : Prop where
  acts : Acts strategy keeps s res.state
  resync : ∀ s', res = .error .resync s' → s'.recovering = true ∧ ∃ y, Stands r .fresh s' y path
  ok : ∀ s', res = .ok () s' → ∃ a y, Stands r a s' y path ∧ p.Careful r tidy a s'.coming

namespace Stands

/-- What a step of a rule leaves. -/
theorem step (hs : Stands r a s x path) {b : Slate} (he : Evolves s s') (ht : Tracks s' (y :: path))
    (hstart : y.span.start = x.span.start) (hrule : y.label.rule = r) (hb : b.Holds s' y) :
    Stands r b s' y path := by
  constructor
  case tracks => exact ht
  case proper => exact he.advances.proper hs.proper
  case start_le =>
    rw [hstart]
    exact Nat.le_trans hs.start_le he.advances.cursor_le
  case rule_eq => exact hrule
  case frames_eq =>
    rw [he.frames_eq]
    exact hs.frames_eq
  case holds => exact hb

theorem rule_state (hs : Stands r a s x path) : s.rule = r := by
  obtain ⟨rest, hframes, -⟩ := hs.frames_eq
  rw [State.rule]
  cases hf : s.frames with
  | nil =>
    rw [hf] at hframes
    cases hframes
  | cons f fs =>
    rw [hf] at hframes
    exact (List.cons.inj hframes).1

theorem node_eq (hs : Stands r a s x path) :
    s.arena.nodes[s.node]? = some (x.node (Path.top? path) []) := by
  rw [hs.tracks.node_eq]
  exact hs.tracks.builds.node_top

theorem node_lt (hs : Stands r a s x path) : s.node < s.arena.size :=
  (Array.getElem?_eq_some_iff.mp hs.node_eq).1

/-- The node of the rule can take an error of the rule. -/
theorem hosts (hs : Stands r a s x path) : Hosts s s.node (x.node (Path.top? path) []) s.rule := by
  constructor
  case node_eq => exact hs.node_eq
  case rule_eq => exact hs.rule_eq.trans hs.rule_state.symm
  case start_le => exact hs.start_le
  case stays =>
    refine .inl ?_
    rw [hs.tracks.node_eq, hs.tracks.frames_eq]
    exact List.mem_cons_self

theorem outer (hs : Stands r a s x path) (ho : r.isOuter = true) :
    ∀ r' ∈ s.frames.map Frame.rule, r'.isOuter = true := by
  obtain ⟨rest, hframes, hrest⟩ := hs.frames_eq
  rw [hframes]
  exact List.forall_mem_cons.mpr ⟨ho, hrest ho⟩

/-- **An error is met** where the node of the rule can take it. -/
theorem report_act (hs : Stands r a s x path) (ha : a.Takes r expected s.coming)
    (hk : expected.contains (next s.coming) = false) (cause : SyntaxError.Cause) :
    Act strategy keeps s (Result.state (reportHere strategy cause expected s)) := by
  have hkind : s.kindAt 1 = next s.coming := kindAt_one hs.proper
  refine .report hs.hosts ⟨rfl, rfl, ?_⟩ fun _ => ?_
  · rw [hkind]
    exact hk
  · have hholds := hs.holds
    cases a with
    | clean => exact .inr (.inr hholds)
    | fresh => exact hholds.elim (fun h => .inr (.inr h)) .inl
    | marked =>
      -- The node may have an error already, but then a bracket is missing behind the last token.
      obtain ⟨heof, hr, hset⟩ := ha.resolve_left fun h => h rfl
      exact .inr (.inl ⟨hkind.trans heof, hs.rule_state.trans hr, hset⟩)

/-- Behind an error that was met the rule goes on. -/
theorem report (hs : Stands r a s x path) (h : reportHere strategy cause expected s = .ok () s') :
    ∃ y, Stands r .fresh s' y path := by
  obtain ⟨hstream, hframes, hrec⟩ := reportHere_ok h
  have he : Evolves s (Result.state (reportHere strategy cause expected s)) :=
    .edit (.report s strategy cause expected)
  rw [h] at he
  obtain ⟨e, ht⟩ := reportHere_tracks h hs.tracks
  exact ⟨_, hs.step he ht rfl hs.rule_eq (.inr hrec)⟩

theorem consume (hs : Stands r a s x path) (hk : s.kindAt 1 ≠ .endOfInput) :
    ∃ y, Stands r a.behind s.consume y path := by
  refine ⟨_, hs.step (.edit (.consume hk)) hs.tracks.consume rfl hs.rule_eq ?_⟩
  cases a with
  | clean => exact hs.holds
  | fresh | marked => trivial

theorem discard (hs : Stands r a s x path) (hk : s.kindAt 1 ≠ .endOfInput)
    (hr : s.recovering = true) : ∃ y, Stands r a (s.discard s.node) y path := by
  refine ⟨_, hs.step (.edit (.discard hk hr)) hs.tracks.discard rfl hs.rule_eq ?_⟩
  cases a with
  | clean => exact hs.holds
  | fresh => exact .inr hr
  | marked => trivial

theorem discardUntil (hs : Stands r a s x path) (hr : s.recovering = true) (stop : KindSet)
    (n : Nat) : ∃ y, Stands r a (s.discardUntil s.node stop n) y path := by
  refine (discardUntil_induction n
    (P := fun t => t.node = s.node ∧ t.recovering = true ∧ ∃ y, Stands r a t y path)
    ⟨rfl, hr, x, hs⟩ ?_).2.2
  rintro t ⟨hnode, hr, y, hy⟩ hk -
  have hdiscard := hy.discard hk hr
  rw [hnode] at hdiscard
  exact ⟨hnode, hr, hdiscard⟩

theorem recover (hs : Stands r a s x path) (hr : s.recovering = true)
    (h : recover s = .ok () s') : ∃ y, Stands r a s' y path := by
  rw [recover_ok_eq h, recovering_self hr]
  exact hs.discardUntil hr s.resyncSet s.stream.remaining

/-- Less is known of the node. -/
theorem forget (hs : Stands r a s x path) : Stands r .marked s x path :=
  ⟨hs.tracks, hs.proper, hs.start_le, hs.rule_eq, hs.frames_eq, trivial⟩

/-- A rule that is opened starts with a clean node. -/
theorem enter (hs : Stands r a s x path) (ho : r'.isOuter = true → r.isOuter = true) (f : Nat) :
    Stands r' .clean (s.enter (.ofRule r') f) (.opened s.arena.size (.ofRule r') s.cursor)
      (x :: path) := by
  constructor
  case tracks => exact hs.tracks.enter (.ofRule r') f
  case proper => exact hs.proper
  case start_le => exact Nat.le_refl _
  case rule_eq => exact Label.rule_ofRule r'
  case frames_eq =>
    refine ⟨s.frames.map Frame.rule, ?_, fun h => hs.outer (ho h)⟩
    rw [State.enter, List.map_cons, Label.rule_ofRule]
  case holds => rfl

/-- Behind a rule that was called the calling rule goes on. -/
theorem leave (hs : Stands r a s x path) (he : Evolves (s.enter (.ofRule r') f) s') :
    ∃ y, Stands r a.behind s'.leave y path := by
  obtain ⟨c, hc, -⟩ := he.tracks_nest hs.tracks
  refine ⟨_, hs.step (.nest he) hc rfl hs.rule_eq ?_⟩
  cases a with
  | clean => exact hs.holds
  | fresh | marked => trivial

end Stands

/-! ## What scripts are made of -/

theorem Acted.of_ok (ha : Acts strategy keeps s s') (hs : Stands r a s' y path)
    (hp : p.Careful r tidy a s'.coming) : Acted strategy keeps r tidy path p s (.ok () s') := by
  refine ⟨ha, (fun t h => by cases h), ?_⟩
  intro t h
  cases h
  exact ⟨a, y, hs, hp⟩

/-- What was done before. -/
theorem Acted.after (h : Acted strategy keeps r tidy path p s' res)
    (ha : Acts strategy keeps s s') : Acted strategy keeps r tidy path p s res :=
  ⟨ha.trans h.acts, h.resync, h.ok⟩

/-- A rule that ends, once its body has ended. -/
theorem Acted.closing (h : Acted strategy keeps r tidy path .done s res) :
    ∃ v, Result.state (closing res) = State.leave v ∧ Acts strategy keeps s v ∧
      Evolves res.state v ∧
      ∀ s', closing res = .ok () s' → ∃ b y, Stands r b v y path ∧ (tidy → b ≠ .marked) := by
  have hacts := h.acts
  -- Only a rule that looks for a place to go on does more than close its node.
  cases res with
  | ok _ t =>
    refine ⟨t, rfl, hacts, .refl t, fun _ _ => ?_⟩
    obtain ⟨b, y, hy, hb⟩ := h.ok t rfl
    refine ⟨b, y, hy, fun ht => ?_⟩
    rw [hb ht]
    decide
  | error b t =>
    cases b with
    | halt => exact ⟨t, rfl, hacts, .refl t, fun _ hc => by cases hc⟩
    | resync =>
      -- The rule is left with an error, and looks for a place to go on.
      obtain ⟨hr, y, hy⟩ := h.resync t rfl
      refine ⟨Result.state (recover t), ?_, hacts.trans (recover_acts hr hy.node_lt),
        recover_evolves t, fun s' hc => ?_⟩
      · rw [Parser.closing]
        cases recover t <;> rfl
      · rw [Parser.closing] at hc
        cases hrec : recover t with
        | ok _ v =>
          obtain ⟨z, hz⟩ := hy.recover hr hrec
          exact ⟨.fresh, z, hz, fun _ => by decide⟩
        | error b v =>
          rw [hrec] at hc
          cases hc

theorem fail_state (strategy : Strategy) (cause : SyntaxError.Cause) (expected : KindSet)
    (s : State) : Result.state (fail strategy cause expected s) =
      Result.state (reportHere strategy cause expected s) := by
  show Result.state (EStateM.bind _ _ s) = _
  rw [EStateM.bind]
  cases reportHere strategy cause expected s <;> rfl

theorem fail_acts (hs : Stands r a s x path) (ha : a.Takes r expected s.coming)
    (hk : expected.contains (next s.coming) = false) (cause : SyntaxError.Cause) :
    Acted strategy keeps r tidy path p s (fail strategy cause expected s) := by
  constructor
  case acts =>
    rw [fail_state]
    exact .act (hs.report_act ha hk cause)
  case resync =>
    intro t ht
    exact ⟨(reportHere_ok (fail_resync ht)).2.2, hs.report (fail_resync ht)⟩
  case ok => exact fun t ht => absurd ht fail_ne_ok

/-- A stray token: it is told of and dropped, and the one behind it is matched. -/
theorem stray_acts (hs : Stands r a s x path) (hset : set.contains .endOfInput = false)
    (ha : a.Takes r set s.coming) (hk : set.contains (next s.coming) = false)
    (hstray : s.kindAt 1 ≠ .endOfInput) (hbehind : set.contains (s.kindAt 2) = true)
    (hp : ∀ w, p.Careful r tidy .marked w) :
    Acted strategy keeps r tidy path p s
      (match reportHere strategy .extraneous set s with
      | .ok () t => .ok () (t.discard t.node).consume
      | .error a t => .error a t) := by
  have hact : Acts strategy keeps s _ := .act (hs.report_act ha hk .extraneous)
  cases hreport : reportHere strategy .extraneous set s with
  | error b t =>
    rw [hreport] at hact
    obtain rfl := report_error hreport
    exact ⟨hact, (fun _ h => by cases h), fun _ h => by cases h⟩
  | ok _ t =>
    rw [hreport] at hact
    obtain ⟨y, hy⟩ := hs.report hreport
    obtain ⟨hstream, -, hrec⟩ := reportHere_ok hreport
    have hkinds := kindAt_eq_of_stream hstream
    have hfirst : t.kindAt 1 ≠ .endOfInput := by
      rw [hkinds]
      exact hstray
    -- What is matched behind the stray token is in the set, so it is not the end of the input.
    have hsecond : (t.discard t.node).kindAt 1 ≠ .endOfInput := by
      rw [kindAt_discard hy.proper hfirst, hkinds]
      exact KindSet.ne_of_contains hset hbehind
    obtain ⟨z, hz⟩ := hy.discard hfirst hrec
    obtain ⟨z, hz⟩ := hz.consume hsecond
    exact .of_ok (hact.trans_act (.stray hy.node_lt hrec hfirst hsecond)) hz.forget (hp _)

/-- Matching a token: it comes next, or an error is met. -/
theorem expectOneOf_acts (hs : Stands r a s x path) (hset : set.contains .endOfInput = false)
    (hc : (Script.step (.take set) p).Careful r tidy a s.coming) :
    Acted strategy keeps r tidy path p s (expectOneOf strategy set s) := by
  have hkind : s.kindAt 1 = next s.coming := kindAt_one hs.proper
  rw [expectOneOf_eq]
  split
  · rename_i hk
    have hne := KindSet.ne_of_contains hset hk
    obtain ⟨y, hy⟩ := hs.consume hne
    have hact : Acts strategy keeps s s.consume := .act (.consume hne)
    rcases hc with ⟨-, hp⟩ | ⟨-, hp⟩
    · exact .of_ok hact hy (hp _)
    · exact .of_ok hact hy.forget (hp _)
  · rename_i hk
    rw [hkind] at hk
    obtain ⟨ha, hp⟩ := hc.resolve_left fun h => hk h.1
    rw [Bool.not_eq_true] at hk
    split
    · rename_i hstray
      simp only [ne_eq, Bool.and_eq_true, decide_eq_true_eq] at hstray
      exact stray_acts hs hset ha hk hstray.1 hstray.2 hp
    · exact fail_acts hs ha hk .mismatched

/-- **What a step of a careful script is made of.** -/
theorem Move.run_acts (hs : Stands r a s x path) (hm : m.Plain)
    (hc : (Script.step m p).Careful r tidy a s.coming) :
    Acted strategy keeps r tidy path p s (m.run strategy s) := by
  have he := m.run_evolves hm strategy hs.proper
  cases m with
  | relabel label =>
    obtain ⟨hl, hp⟩ := hc
    have hact : Act strategy keeps s (s.relabel label) :=
      .relabel hs.node_eq (hl.trans hs.rule_eq.symm)
    exact .of_ok (.act hact) (hs.step he (hs.tracks.relabel label) rfl hl hs.holds) hp
  | wrap label =>
    obtain ⟨hl, hp⟩ := hc
    have hwrap : Stands r .clean (s.wrap label) _ path :=
      hs.step he (hs.tracks.wrap label) rfl hl rfl
    exact .of_ok (.act (.wrap s label)) hwrap ((coming_wrap s label).symm ▸ hp)
  | take set => exact expectOneOf_acts hs hm hc
  | check floor highest =>
    obtain ⟨hlow, hhigh⟩ := hc
    by_cases hf : floor ≤ highest
    · have hrun : (Move.check floor highest).run strategy s = .ok () s := by
        rw [run, checkFloor, if_pos hf]
        rfl
      rw [hrun]
      exact .of_ok (.refl s) hs (hlow hf)
    · -- A floor that is too high is told of, and the rule goes on.
      obtain ⟨ha, hp⟩ := hhigh hf
      have hrun : (Move.check floor highest).run strategy s =
          reportHere strategy (.floorTooHigh floor highest) ∅ s := by
        rw [run, checkFloor, if_neg hf]
      rw [hrun]
      constructor
      case acts => exact .act (hs.report_act ha (KindSet.contains_empty _) _)
      case resync => exact fun s' h => by cases report_error h
      case ok =>
        intro s' h
        obtain ⟨y, hy⟩ := hs.report h
        refine ⟨.fresh, y, hy, ?_⟩
        rw [State.coming, (reportHere_ok h).1]
        exact hp
  | fail expected => exact fail_acts hs hc.2 hc.1 .noViable
  | sync =>
    obtain ⟨rfl, hk, ha, hp⟩ := hc
    -- The error is met at the query, and what is found behind it is the end of a stage.
    have hfail : Acted strategy keeps .query tidy path .done s
        (Parser.fail strategy .noViable Rule.query.follow s) := fail_acts hs ha hk .noViable
    have hacts := hfail.acts
    constructor
    case acts =>
      rw [run, syncStage, recovering]
      split
      · rename_i t ht
        rw [ht] at hacts
        obtain ⟨hr, y, hy⟩ := hfail.resync t ht
        exact hacts.trans (recover_acts hr hy.node_lt)
      · exact hacts
    case resync => exact fun _ h => absurd h syncStage_ne_resync
    case ok =>
      intro s' h
      have hstop := syncStage_stop hs.proper (hs.outer rfl) h
      obtain ⟨t, ht, h⟩ := syncStage_ok_inv h
      obtain ⟨hr, y, hy⟩ := hfail.resync t ht
      obtain ⟨z, hz⟩ := hy.recover hr h
      exact ⟨.marked, z, hz.forget, hp _ hstop⟩

/-- **What a careful script is made of.** -/
theorem Executes.acts (h : Executes strategy limit d p s res) (hs : Stands r a s x path)
    (hc : p.Careful r tidy a s.coming) : Acted strategy keeps r tidy path .done s res := by
  -- By induction on the execution: each step leaves a state in which the rest is careful.
  induction h generalizing r a x path tidy with
  | done => exact .of_ok (.refl _) hs hc
  | @step d m p s s' res hm h _ ih =>
    have hstep : Acted strategy keeps r tidy path p s _ := Move.run_acts hs hm hc
    obtain ⟨b, y, hs', hp⟩ := hstep.ok s' h
    have hacts := hstep.acts
    rw [h] at hacts
    exact (ih hs' hp).after hacts
  | @stop d m p s s' b hm h =>
    have hstep : Acted strategy keeps r tidy path p s _ := Move.run_acts hs hm hc
    rw [h] at hstep
    exact ⟨hstep.acts, hstep.resync, fun _ h => by cases h⟩
  | @call d r' f p s s' res res' _ hb hcl _ ihb ihp =>
    -- The rule that is called starts with a node of its own, and nothing is asked of that.
    obtain ⟨hcalled, ho, hp⟩ := hc
    have hbody : Acted strategy keeps r' False (x :: path) .done _ _ :=
      ihb (hs.enter ho f) (opening_careful hcalled fun h => h.elim)
    obtain ⟨v, hv, hacts, he, -⟩ := hbody.closing
    rw [hcl] at hv
    obtain rfl : s' = v.leave := hv
    obtain ⟨y, hy⟩ := hs.leave ((hb.evolves hs.proper).trans he)
    have hleaves := hb.leaves hcl hs.proper hcalled fun h => hs.outer (ho h)
    exact (ihp hy (hp _ hleaves)).after (.nest hacts)
  | @callStop d r' f p s s' b res' _ hb hcl ihb =>
    obtain ⟨hcalled, ho, -⟩ := hc
    have hbody : Acted strategy keeps r' False (x :: path) .done _ _ :=
      ihb (hs.enter ho f) (opening_careful hcalled fun h => h.elim)
    obtain ⟨v, hv, hacts, -, -⟩ := hbody.closing
    rw [hcl] at hv
    obtain rfl : s' = v.leave := hv
    refine ⟨.nest hacts, ?_, fun _ h => by cases h⟩
    intro t ht
    cases ht
    exact absurd hcl closing_ne_resync
  | deep =>
    exact ⟨.nest (.act (.tooDeep _ limit)), (fun _ h => by cases h), fun _ h => by cases h⟩
  | go _ ih => exact ih hs (Phase.script_careful hc.1 hc.2)
  | idle => exact .of_ok (.refl _) hs hc.1

/-- **What a rule is made of** that is called. -/
theorem Calls.acts (keeps : Prop) (h : Calls strategy limit d r' f s res) (hs : Stands r a s x path)
    (hcalled : r'.Called f s.coming) (ho : r'.isOuter = true → r.isOuter = true) :
    ∃ v, res.state = v.leave ∧ Acts strategy keeps (s.enter (.ofRule r') f) v ∧
      Evolves (s.enter (.ofRule r') f) v ∧
      ∀ s', res = .ok () s' → r'.Leaves s.coming s'.coming := by
  cases d with
  | zero =>
    cases h
    exact ⟨_, rfl, .act (.tooDeep _ limit), .edit (.tooDeep _ limit), fun _ h => by cases h⟩
  | succ d =>
    obtain ⟨res', hb, rfl⟩ := h
    have hbody : Acted strategy keeps r' False (x :: path) .done _ _ :=
      hb.acts (hs.enter ho f) (opening_careful hcalled fun h => h.elim)
    obtain ⟨v, hv, hacts, he, -⟩ := hbody.closing
    exact ⟨v, hv, hacts, (hb.evolves hs.proper).trans he, fun s' hcl =>
      hb.leaves hcl hs.proper hcalled fun h => hs.outer (ho h)⟩

end PipeQuery.Parser

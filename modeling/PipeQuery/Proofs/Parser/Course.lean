import PipeQuery.Proofs.Parser.Acts
import PipeQuery.Proofs.Parser.Invariants
import PipeQuery.Proofs.Tree.Discards
import PipeQuery.Proofs.Tree.Placement

/-!
# The course of a parse

A whole parse is made of acts, up to the end of the input, which is matched last. What all acts keep
therefore holds at the end of a parse that starts with it, and what the acts keep while the parse
goes on holds of the state that its tree is taken from.

## Main definitions

* `Entry.Keeps`: an entry that keeps all errors
* `Arrives`: the end states of a parse, by the acts that lead to them
* `Kept`, `Live`: what is kept by all acts, and what is kept while the parse goes on
* `Quiet`: acts that neither read a token nor meet an error
* `Yields`: a state that a tree is taken from

## Main results

* `run_arrives`: a whole parse is made of acts
* `Kept.arrives`, `Live.parse`: what is kept holds at the end
* `Yields.mem_diagnostics`: the errors of a tree are those of the arena
-/

namespace PipeQuery

/-- An entry that keeps all errors. An expression whose floor is too high has an error for that, and
keeps no error of what stands behind it. -/
def Entry.Keeps : Entry → Prop
  | .statement => True
  | .expression floor => floor ≤ Precedence.booleanMax

namespace Parser

open Token (Kind KindSet)

/-- The end states of a parse, by the acts that lead to them. A rule is opened and closed, and what
stands behind it is dropped; or the end of the input is matched last, at the end of a query. -/
inductive Arrives (strategy : Strategy) (keeps : Prop) (tokens : List Token) : State → Prop where
  | closed {r : Rule} {floor : Nat} {v t : State}
    (h : Acts strategy keeps ((State.start (.ofList tokens)).enter (.ofRule r) floor) v)
    (ht : Acts strategy keeps v.leave t) : Arrives strategy keeps tokens t
  | matched {u : State} (h : Acts strategy keeps (opened tokens) u)
    (hk : u.kindAt 1 = .endOfInput) :
    Arrives strategy keeps tokens u.consume.leave

/-- What is kept by all acts. Behind a rule that was called, the rules are open that were open
before. -/
structure Kept (strategy : Strategy) (keeps : Prop) (P : State → Prop) : Prop where
  act : ∀ {s s'}, s.stream.Proper → Act strategy keeps s s' → P s → P s'
  enter : ∀ {s} r floor, P s → P (s.enter (.ofRule r) floor)
  leave : ∀ {s s'}, P s → P s' → s'.leave.frames.map Frame.rule = s.frames.map Frame.rule →
    P s'.leave

variable {strategy : Strategy} {keeps : Prop} {s s' t u v : State} {x y : Site} {b : Slate}
  {P : State → Prop} {options : Options} {tokens : List Token} {limit d f : Nat} {r : Rule}
  {res : Result}

/-! ## What acts do not change -/

theorem Act.advances (h : Act strategy keeps s s') : Advances s.stream s'.stream := by
  cases h with
  | relabel | tooDeep | close => exact .refl _
  | wrap label =>
    rw [stream_wrap]
    exact .refl _
  | consume | drop | giveUp => exact advances_consume _
  | @report id n e =>
    rw [(report_keeps strategy id e s).1]
    exact .refl _
  | stray => exact (advances_consume _).trans (advances_consume _)

theorem Acts.advances (h : Acts strategy keeps s s') : Advances s.stream s'.stream := by
  induction h with
  | refl s => exact .refl _
  | act h => exact h.advances
  | nest _ ih =>
    rw [stream_leave]
    exact ih
  | trans _ _ ih ih' => exact ih.trans ih'

theorem Act.frames_eq (h : Act strategy keeps s s') :
    s'.frames.map Frame.rule = s.frames.map Frame.rule := by
  cases h with
  | relabel | tooDeep | close | consume | drop | giveUp | stray => rfl
  | wrap label => exact (Edit.wrap s label).frames_eq
  | @report id n e => rw [(report_keeps strategy id e s).2]

theorem frames_leave (s : State) : s.leave.frames = s.frames.tail := by
  rw [State.leave]
  split
  · rename_i hs
    rw [hs, List.tail_nil]
  · rename_i hs
    rw [hs, List.tail_cons]

/-- The open rules stay. -/
theorem Acts.frames_eq (h : Acts strategy keeps s s') :
    s'.frames.map Frame.rule = s.frames.map Frame.rule := by
  induction h with
  | refl => rfl
  | act h => exact h.frames_eq
  | nest _ ih => rw [frames_leave, List.map_tail, ih, State.enter, List.map_cons, List.tail_cons]
  | trans _ _ ih ih' => exact ih'.trans ih

/-! ## What is kept -/

/-- **What is kept by all acts** is kept by what is made of them. -/
theorem Kept.acts (hP : Kept strategy keeps P) (h : Acts strategy keeps s s')
    (hs : s.stream.Proper) (h₀ : P s) : P s' := by
  induction h with
  | refl => exact h₀
  | act h => exact hP.act hs h h₀
  | nest h ih =>
    -- Behind the rule that was called, the rules are open that were open before it.
    exact hP.leave h₀ (ih hs (hP.enter _ _ h₀)) (Acts.nest h).frames_eq
  | trans h _ ih ih' => exact ih' (h.advances.proper hs) (ih hs h₀)

/-- **What is kept by all acts holds at the end**, or before the end of the input is matched. -/
theorem Kept.arrives (hP : Kept strategy keeps P) (h : Arrives strategy keeps tokens t)
    (h₀ : P (.start (.ofList tokens))) :
    P t ∨ ∃ u, t = u.consume.leave ∧ P u ∧ u.stream.Proper ∧ u.kindAt 1 = .endOfInput := by
  have hs := TokenStream.proper_ofList tokens
  cases h with
  | @closed r floor v t h ht =>
    exact .inl (hP.acts ((Acts.nest h).trans ht) hs h₀)
  | matched h hk => exact .inr ⟨_, rfl, hP.acts h hs (hP.enter _ _ h₀), h.advances.proper hs, hk⟩

/-- What is kept while the parse goes on. -/
structure Live (keeps : Prop) (P : State → Prop) : Prop where
  relabel : ∀ {s label n}, P s → s.arena.nodes[s.node]? = some n → label.rule = n.label.rule →
    P (s.relabel label)
  wrap : ∀ {s} label, P s → P (s.wrap label)
  consume : ∀ {s}, P s → s.stream.Proper → s.kindAt 1 ≠ .endOfInput → P s.consume
  report : ∀ {s id n e}, P s → s.stream.Proper → s.recovering = false → Hosts s id n e.rule →
    Meets s e → (keeps → Unclosed e ∨ n.error = none) →
    P { s.raise id e with lastError := some e }
  discard : ∀ {s}, P s → s.stream.Proper → s.recovering = true → s.kindAt 1 ≠ .endOfInput →
    ∀ id < s.arena.size, P (s.discard id)
  close : ∀ {s} id, P s → P { s with arena := s.arena.close id s.cursor }
  enter : ∀ {s} r floor, P s → P (s.enter (.ofRule r) floor)
  leave : ∀ {s}, P s → P s.leave

theorem Live.and {Q : State → Prop} (hP : Live keeps P) (hQ : Live keeps Q) :
    Live keeps fun s => P s ∧ Q s := by
  constructor
  case relabel => exact fun h hn hl => ⟨hP.relabel h.1 hn hl, hQ.relabel h.2 hn hl⟩
  case wrap => exact fun label h => ⟨hP.wrap label h.1, hQ.wrap label h.2⟩
  case consume => exact fun h hs hk => ⟨hP.consume h.1 hs hk, hQ.consume h.2 hs hk⟩
  case report =>
    exact fun h hs hr hn he hc => ⟨hP.report h.1 hs hr hn he hc, hQ.report h.2 hs hr hn he hc⟩
  case discard =>
    exact fun h hs hr hk id hid => ⟨hP.discard h.1 hs hr hk id hid, hQ.discard h.2 hs hr hk id hid⟩
  case close => exact fun id h => ⟨hP.close id h.1, hQ.close id h.2⟩
  case enter => exact fun r floor h => ⟨hP.enter r floor h.1, hQ.enter r floor h.2⟩
  case leave => exact fun h => ⟨hP.leave h.1, hQ.leave h.2⟩

/-- A parse that is over does not go on. -/
theorem failure_terminate_ne (s : State) (failure : Failure) :
    (s.terminate failure).failure ≠ none :=
  Option.isSome_iff_ne_none.mp (isSome_terminate s failure)

theorem Live.kept (hP : Live keeps P) : Kept strategy keeps fun s => s.failure = none → P s := by
  constructor
  case act =>
    intro s s' hs h h₀ hf
    cases h with
    | relabel hn hl => exact hP.relabel (h₀ hf) hn hl
    | wrap label =>
      rw [failure_wrap] at hf
      exact hP.wrap label (h₀ hf)
    | consume hk => exact hP.consume (h₀ hf) hs hk
    | @report id n e hn he hc =>
      rw [report_state] at hf ⊢
      split at hf
      · rename_i hr
        rw [if_pos hr]
        exact h₀ hf
      · rename_i hr
        rw [if_neg hr]
        cases strategy with
        | bail => exact absurd hf (failure_terminate_ne _ _)
        | recover =>
          -- The error is kept, since the parse was not looking for a place to go on.
          exact hP.report (h₀ hf) hs (Bool.eq_false_iff.mpr hr) hn he fun hkeeps =>
            (hc hkeeps).resolve_left hr
    | drop hid h => exact hP.discard (h₀ hf) hs h.recovering_eq h.kind_ne _ hid
    | stray hid hr hk hk' =>
      exact hP.consume (hP.discard (h₀ hf) hs hr hk _ hid) ((advances_consume _).proper hs) hk'
    | giveUp | tooDeep => exact absurd hf (failure_terminate_ne _ _)
    | close id => exact hP.close id (h₀ hf)
  case enter => exact fun r floor h₀ hf => hP.enter r floor (h₀ hf)
  case leave =>
    intro _ s _ h _ hf
    rw [failure_leave] at hf
    exact hP.leave (h hf)

/-- What neither reads a token nor meets an error. -/
structure Quiet (s s' : State) : Prop where
  stream_eq : s'.stream = s.stream
  recovering_eq : s'.recovering = s.recovering
  raised_eq : s'.raised = s.raised
  errors : s.arena.SameErrors s'.arena
  discards : s.arena.SameDiscards s'.arena

theorem Quiet.cursor_eq (h : Quiet s s') : s'.cursor = s.cursor :=
  congrArg TokenStream.cursor h.stream_eq

theorem Quiet.kindAt_eq (h : Quiet s s') (k : Nat) : s'.kindAt k = s.kindAt k :=
  congrArg (TokenStream.kindAt · k) h.stream_eq

theorem quiet_relabel (s : State) (label : Label) : Quiet s (s.relabel label) :=
  ⟨rfl, rfl, rfl, Arena.sameErrors_relabel .., Arena.sameDiscards_relabel ..⟩

theorem quiet_wrap (s : State) (label : Label) : Quiet s (s.wrap label) := by
  rw [State.wrap]
  split
  · exact ⟨rfl, rfl, rfl, .refl _, .refl _⟩
  · exact ⟨rfl, rfl, rfl, Arena.sameErrors_wrap .., Arena.sameDiscards_wrap ..⟩

theorem quiet_close (s : State) (id : NodeId) :
    Quiet s { s with arena := s.arena.close id s.cursor } :=
  ⟨rfl, rfl, rfl, Arena.sameErrors_close .., Arena.sameDiscards_close ..⟩

theorem quiet_enter (s : State) (label : Label) (floor : Nat) : Quiet s (s.enter label floor) :=
  ⟨rfl, rfl, rfl, Arena.sameErrors_openNode .., Arena.sameDiscards_openNode ..⟩

theorem quiet_leave (s : State) : Quiet s s.leave := by
  rw [State.leave]
  split
  · exact ⟨rfl, rfl, rfl, .refl _, .refl _⟩
  · exact ⟨rfl, rfl, rfl, Arena.sameErrors_close .., Arena.sameDiscards_close ..⟩

/-- What does not depend on the shape of the tree, but on the tokens and the errors. What is known to
be kept may be used where an error is met. -/
theorem Live.along {Q : State → Prop} (hP : Live keeps P)
    (hquiet : ∀ {s s'}, Quiet s s' → Q s → Q s')
    (hconsume : ∀ {s}, Q s → s.stream.Proper → s.kindAt 1 ≠ .endOfInput → Q s.consume)
    (hreport : ∀ {s id n e}, P s → Q s → s.stream.Proper → s.recovering = false →
      Hosts s id n e.rule → Meets s e → (keeps → Unclosed e ∨ n.error = none) →
      Q { s.raise id e with lastError := some e })
    (hdiscard : ∀ {s}, Q s → s.stream.Proper → s.recovering = true → s.kindAt 1 ≠ .endOfInput →
      ∀ id < s.arena.size, Q (s.discard id)) : Live keeps fun s => P s ∧ Q s := by
  constructor
  case relabel => exact fun h hn hl => ⟨hP.relabel h.1 hn hl, hquiet (quiet_relabel _ _) h.2⟩
  case wrap => exact fun label h => ⟨hP.wrap label h.1, hquiet (quiet_wrap _ label) h.2⟩
  case consume => exact fun h hs hk => ⟨hP.consume h.1 hs hk, hconsume h.2 hs hk⟩
  case report =>
    exact fun h hs hr hn he hc => ⟨hP.report h.1 hs hr hn he hc, hreport h.1 h.2 hs hr hn he hc⟩
  case discard =>
    exact fun h hs hr hk id hid => ⟨hP.discard h.1 hs hr hk id hid, hdiscard h.2 hs hr hk id hid⟩
  case close => exact fun id h => ⟨hP.close id h.1, hquiet (quiet_close _ id) h.2⟩
  case enter =>
    exact fun r floor h => ⟨hP.enter r floor h.1, hquiet (quiet_enter _ (.ofRule r) floor) h.2⟩
  case leave => exact fun h => ⟨hP.leave h.1, hquiet (quiet_leave _) h.2⟩

theorem live_true (keeps : Prop) : Live keeps fun _ => True := by
  constructor <;> intros <;> trivial

theorem Live.of_quiet (hquiet : ∀ {s s'}, Quiet s s' → P s → P s')
    (hconsume : ∀ {s}, P s → s.stream.Proper → s.kindAt 1 ≠ .endOfInput → P s.consume)
    (hreport : ∀ {s id n e}, P s → s.stream.Proper → s.recovering = false → Hosts s id n e.rule →
      Meets s e → (keeps → Unclosed e ∨ n.error = none) →
      P { s.raise id e with lastError := some e })
    (hdiscard : ∀ {s}, P s → s.stream.Proper → s.recovering = true → s.kindAt 1 ≠ .endOfInput →
      ∀ id < s.arena.size, P (s.discard id)) : Live keeps P := by
  have hlive : Live keeps fun s => True ∧ P s :=
    (live_true keeps).along hquiet hconsume (fun _ => hreport) hdiscard
  simpa only [true_and] using hlive

/-! ## Whole parses -/

theorem opened_stands (tokens : List Token) :
    Stands .singleStatement .clean (opened tokens) (.opened 0 .singleStatement 0) [] := by
  constructor
  case tracks => exact opened_tracks tokens
  case proper => exact opened_proper tokens
  case start_le => exact Nat.zero_le _
  case rule_eq => rfl
  case frames_eq => exact ⟨[], rfl, fun _ _ h => (List.not_mem_nil h).elim⟩
  case holds => rfl

theorem openedExpression_stands (tokens : List Token) (floor : Nat) :
    Stands .booleanExpression .clean (openedExpression tokens floor)
      (.opened 0 (.ofRule .booleanExpression) 0) [] := by
  constructor
  case tracks => exact openedExpression_tracks tokens floor
  case proper => exact TokenStream.proper_ofList tokens
  case start_le => exact Nat.zero_le _
  case rule_eq => rfl
  case frames_eq => exact ⟨[], rfl, fun _ _ h => (List.not_mem_nil h).elim⟩
  case holds => rfl

/-- The end of a query: the end of the input is matched, or the parse is over. -/
theorem expect_end_arrives (hs : Stands .singleStatement .clean u x [])
    (h : Acts strategy keeps (opened tokens) u) :
    Arrives strategy keeps tokens
      (Result.state (closing (expectOneOf strategy (.ofList [.endOfInput]) u))) := by
  -- Nothing can go on behind a statement, so a token that is in the way may be dropped.
  have hresync (k : Kind) : u.resyncSet.contains k = false :=
    not_resync (h.frames_eq.trans rfl) k
  rw [expectOneOf_eq]
  simp only [KindSet.contains_ofList, List.mem_singleton, decide_eq_true_eq, Bool.and_eq_true,
    ne_eq]
  split
  · rename_i hk
    exact .matched h hk
  · rename_i hk
    have hexpected : (KindSet.ofList [.endOfInput]).contains (next u.coming) = false := by
      rw [← kindAt_one hs.proper]
      simpa using hk
    split
    · rename_i hstray
      have hact : Act strategy keeps u _ :=
        hs.report_act Slate.takes_clean hexpected .extraneous
      cases hreport : reportHere strategy .extraneous (.ofList [.endOfInput]) u with
      | error b t =>
        rw [hreport] at hact
        obtain rfl := report_error hreport
        exact .closed (h.trans_act hact) (.refl _)
      | ok _ t =>
        rw [hreport] at hact
        obtain ⟨y, hy⟩ := hs.report hreport
        obtain ⟨hstream, hframes, hrec⟩ := reportHere_ok hreport
        have hkinds := kindAt_eq_of_stream hstream
        have hfirst : t.kindAt 1 ≠ .endOfInput := by
          rw [hkinds]
          exact hk
        have hskips : t.Skips := by
          refine ⟨hrec, hfirst, ?_⟩
          rw [State.resyncSet, hframes, ← State.resyncSet]
          exact hresync _
        refine .matched ((h.trans_act hact).trans_act (.drop hy.node_lt hskips)) ?_
        rw [kindAt_discard hy.proper hfirst, hkinds]
        exact hstray.2
    · have hfail : Acted strategy keeps .singleStatement False [] .done u
          (fail strategy .mismatched (.ofList [.endOfInput]) u) :=
        fail_acts hs Slate.takes_clean hexpected .mismatched
      obtain ⟨v, hv, hacts, -⟩ := hfail.closing
      rw [hv]
      exact .closed (h.trans hacts) (.refl _)

/-- The query of a statement. -/
theorem query_acts (options : Options) (keeps : Prop) (d : Nat) (tokens : List Token) :
    ∃ v, Result.state (parseRule options d .query 0 (opened tokens)) = v.leave ∧
      Acts options.strategy keeps ((opened tokens).enter (.ofRule .query) 0) v ∧
      Evolves ((opened tokens).enter (.ofRule .query) 0) v ∧
      (∀ u, parseRule options d .query 0 (opened tokens) ≠ .error .resync u) ∧
      ∀ u, parseRule options d .query 0 (opened tokens) = .ok () u →
        next u.coming = .endOfInput ∨ next u.coming = .rightBracket := by
  have hs := opened_stands tokens
  have hcall := query_calls options d tokens
  have hcalled : Rule.query.Called 0 (opened tokens).coming :=
    ⟨fun h => (by cases h), fun _ => rfl⟩
  obtain ⟨v, hv, hacts, he, hleaves⟩ := hcall.acts keeps hs hcalled id
  obtain ⟨-, hresync⟩ := hcall.ends (opened_going tokens)
  exact ⟨v, hv, hacts, he, hresync, fun u hu => (hleaves u hu).query rfl⟩

theorem statement_arrives (options : Options) (keeps : Prop) (tokens : List Token) :
    Arrives options.strategy keeps tokens
      (Result.state (Entry.statement.run options (.start (.ofList tokens)))) := by
  show Arrives _ _ _ (Result.state (parseRule options options.maxDepth .singleStatement 0 _))
  cases options.maxDepth with
  | zero =>
    rw [parseRule, within_eq]
    exact .closed (.act (.tooDeep _ _)) (.refl _)
  | succ d =>
    rw [parseRule_statement]
    have hs := opened_stands tokens
    obtain ⟨v, hv, hacts, he, hresync, -⟩ := query_acts options keeps d tokens
    cases hq : parseRule options d .query 0 (opened tokens) with
    | ok _ u =>
      rw [hq] at hv
      obtain rfl : u = v.leave := hv
      obtain ⟨y, hy⟩ := hs.leave he
      exact expect_end_arrives hy (.nest hacts)
    | error b u =>
      rw [hq] at hv
      obtain rfl : u = v.leave := hv
      cases b with
      | halt => exact .closed (.nest hacts) (.refl _)
      | resync => exact absurd hq (hresync _)

theorem report_size (strategy : Strategy) (id : NodeId) (e : SyntaxError) (s : State) :
    (Result.state (report strategy id e s)).arena.size = s.arena.size := by
  rcases report_arena strategy id e s with harena | harena
  · rw [harena]
  · rw [harena, Arena.size_attach]

/-- What stands behind an expression is dropped into its root. -/
theorem dropRest_acts (hr : s.recovering = true) (hframes : s.frames = []) {id : NodeId}
    (hid : id < s.arena.size) :
    Acts strategy keeps s (s.dropRest id) := by
  have hresync : s.resyncSet = ∅ := by
    rw [State.resyncSet, hframes]
    decide
  obtain ⟨hdrop, -⟩ := discardUntil_acts strategy keeps hr hid s.stream.remaining
  rw [hresync] at hdrop
  exact hdrop.trans_act (.close _ id)

/-- A rule that was called first has left the root, which can still take an error of the rule. -/
theorem Stands.root_leave (hs : Stands r b v y []) : v.leave.arena.root = some y.id :=
  hs.tracks.leave_root.root_eq

theorem Stands.hosts_leave (hs : Stands r b v y []) :
    Hosts v.leave y.id ((y.close v.cursor).node none []) r := by
  constructor
  case node_eq => exact hs.tracks.leave_root.node_top
  case rule_eq => exact hs.rule_eq
  case start_le =>
    rw [cursor_leave]
    exact hs.start_le
  case stays =>
    rw [cursor_leave]
    exact .inr (Nat.le_max_left _ _)

/-- **What stands behind an expression** is an error at its root, if it is any. -/
theorem trailing_acts (hs : Stands .booleanExpression b v y []) (hb : keeps → b ≠ .marked) :
    Acts strategy keeps v.leave (Result.state (trailing strategy v.leave)) := by
  obtain ⟨g, rest, hg, -, hrest⟩ := hs.tracks.exists_frames
  obtain rfl : rest = [] := List.map_eq_nil_iff.mp hrest
  have hframes : v.leave.frames = [] := by rw [frames_leave, hg, List.tail_cons]
  -- No rule is open any more, so the error goes to the root.
  have hosts := hs.hosts_leave
  rw [trailing, hs.root_leave, Option.getD_some]
  split
  · rename_i hk
    have hact : Act strategy keeps v.leave
        (Result.state (report strategy y.id v.leave.trailingError v.leave)) := by
      refine .report hosts (e := v.leave.trailingError) ⟨rfl, rfl, ?_⟩ fun hkeeps => ?_
      · simpa [State.trailingError] using hk
      · have hholds := hs.holds
        rw [recovering_leave]
        cases b with
        | clean => exact .inr (.inr hholds)
        | fresh => exact hholds.elim (fun h => .inr (.inr h)) .inl
        | marked => exact absurd rfl (hb hkeeps)
    cases hreport : report strategy y.id v.leave.trailingError v.leave with
    | error a t =>
      rw [hreport] at hact
      exact .act hact
    | ok _ t =>
      rw [hreport] at hact
      obtain ⟨-, ht, hrec⟩ := report_ok hreport
      have hid : y.id < t.arena.size := by
        have hsize := report_size strategy y.id v.leave.trailingError v.leave
        rw [hreport] at hsize
        exact hsize ▸ (Array.getElem?_eq_some_iff.mp hosts.node_eq).1
      exact (Acts.act hact).trans (dropRest_acts hrec (ht.trans hframes) hid)
  · exact .refl _

/-- An expression that stands alone, before what stands behind it is dropped. -/
theorem expression_acts (options : Options) (keeps : Prop) (floor : Nat) (tokens : List Token) :
    ∃ v, Result.state (parseRule options options.maxDepth .booleanExpression floor
        (.start (.ofList tokens))) = v.leave ∧
      Acts options.strategy keeps (openedExpression tokens floor) v ∧
      ∀ u, parseRule options options.maxDepth .booleanExpression floor (.start (.ofList tokens)) =
        .ok () u → ∃ b y, Stands .booleanExpression b v y [] ∧
          (floor ≤ Precedence.booleanMax → b ≠ .marked) := by
  have hcall := standalone_calls options floor tokens
  generalize parseRule options options.maxDepth .booleanExpression floor (.start (.ofList tokens)) =
    res at hcall ⊢
  cases hd : options.maxDepth with
  | zero =>
    rw [hd] at hcall
    cases hcall
    exact ⟨_, rfl, .act (.tooDeep _ _), fun _ h => by cases h⟩
  | succ d =>
    rw [hd] at hcall
    obtain ⟨res', hb, rfl⟩ := hcall
    have hcalled : Rule.booleanExpression.Called floor (openedExpression tokens floor).coming :=
      ⟨fun h => (by cases h), fun h => by cases h⟩
    have hbody : Acted options.strategy keeps .booleanExpression (floor ≤ Precedence.booleanMax) []
        .done (openedExpression tokens floor) res' :=
      Executes.acts hb (openedExpression_stands tokens floor)
        (opening_careful hcalled fun hf => ⟨rfl, hf⟩)
    obtain ⟨v, hv, hacts, -, hok⟩ := hbody.closing
    exact ⟨v, hv, hacts, hok⟩

theorem expression_arrives (options : Options) (floor : Nat) (tokens : List Token) :
    Arrives options.strategy (floor ≤ Precedence.booleanMax) tokens
      (Result.state ((Entry.expression floor).run options (.start (.ofList tokens)))) := by
  show Arrives _ _ _ (Result.state (standalone options floor _))
  rw [standalone_eq]
  obtain ⟨v, hv, hacts, hok⟩ :=
    expression_acts options (floor ≤ Precedence.booleanMax) floor tokens
  cases hc : parseRule options options.maxDepth .booleanExpression floor
      (.start (.ofList tokens)) with
  | error a t =>
    rw [hc] at hv
    obtain rfl : t = v.leave := hv
    exact .closed hacts (.refl _)
  | ok _ t =>
    rw [hc] at hv
    obtain rfl : t = v.leave := hv
    obtain ⟨b, y, hy, hmarked⟩ := hok _ hc
    exact .closed hacts (trailing_acts hy hmarked)

/-- **A whole parse is made of acts**, up to the end of the input. -/
theorem run_arrives (entry : Entry) (options : Options) (tokens : List Token) :
    Arrives options.strategy entry.Keeps tokens
      (Result.state (entry.run options (.start (.ofList tokens)))) := by
  cases entry with
  | statement => exact statement_arrives options True tokens
  | expression floor => exact expression_arrives options floor tokens

theorem Arrives.frames_eq (h : Arrives strategy keeps tokens t) : t.frames = [] := by
  cases h with
  | closed h ht => exact List.map_eq_nil_iff.mp (((Acts.nest h).trans ht).frames_eq.trans rfl)
  | @matched u h hk =>
    have hu : u.frames.map Frame.rule = [.singleStatement] := h.frames_eq.trans rfl
    have htail : u.consume.frames.tail.map Frame.rule = [] := by
      rw [List.map_tail]
      exact congrArg List.tail hu
    rw [frames_leave]
    exact List.map_eq_nil_iff.mp htail

/-- A state that the tree `t` is taken from. -/
structure Yields (s : State) (t : ParseTree) : Prop where
  frames_eq : s.frames = []
  root_eq : s.arena.root = some t.root
  nodes_eq : t.nodes = s.arena.nodes
  reported_eq : t.reported = s.arena.reported
  tokens_eq : t.tokens = s.stream.tokens
  reports : s.arena.Reports

/-- A tree is taken from the state at the end of the run. -/
theorem parse_yields {entry : Entry} {t : ParseTree} (h : entry.parse options tokens = .ok t) :
    (Result.state (entry.run options (.start (.ofList tokens)))).failure = none ∧
      Yields (Result.state (entry.run options (.start (.ofList tokens)))) t := by
  have hne : (TokenStream.ofList tokens).isEmpty = false := by
    cases entry <;> exact isEmpty_eq_false_of_run h (by simp)
  have harrives := run_arrives entry options tokens
  rw [parse_eq_finish entry hne] at h
  obtain ⟨hf, ha⟩ := finish_eq_ok h
  obtain ⟨hnodes, hreported⟩ := nodes_of_finish h
  rw [Arena.finish, Option.map_eq_some_iff] at ha
  obtain ⟨_, hroot, rfl⟩ := ha
  exact ⟨hf, harrives.frames_eq, hroot, hnodes, hreported, rfl,
    reports_invariant.run entry Arena.reports_empty⟩

/-- **What is kept while the parse goes on holds at the end** of a parse that is not over, or before
the end of the input is matched. -/
theorem Live.arrives (hP : Live keeps P) (h : Arrives strategy keeps tokens t)
    (hf : t.failure = none) (h₀ : P (.start (.ofList tokens))) :
    P t ∨ ∃ u, t = u.consume.leave ∧ P u ∧ u.stream.Proper ∧ u.kindAt 1 = .endOfInput := by
  rcases hP.kept.arrives h fun _ => h₀ with ht | ⟨u, rfl, hu, hproper, hk⟩
  · exact .inl (ht hf)
  · rw [failure_leave] at hf
    exact .inr ⟨u, rfl, hu hf, hproper, hk⟩

/-- What is kept while the parse goes on, and when the end of the input is matched, holds of the
state that the tree is taken from. -/
theorem Live.parse {entry : Entry} {Q : State → Prop} {t : ParseTree} (hP : Live entry.Keeps P)
    (hQ : ∀ s, P s → Q s) (hend : ∀ u, P u → Q u.consume.leave)
    (h₀ : P (.start (.ofList tokens))) (h : entry.parse options tokens = .ok t) :
    ∃ s, Yields s t ∧ Q s := by
  obtain ⟨hf, hs⟩ := parse_yields h
  refine ⟨_, hs, ?_⟩
  rcases hP.arrives (run_arrives entry options tokens) hf h₀ with hlive | ⟨u, heq, hu, -, -⟩
  · exact hQ _ hlive
  · rw [heq]
    exact hend u hu

/-! ## The errors of a tree -/

namespace Yields

variable {t : ParseTree} {e : SyntaxError} {id : NodeId}

theorem error_eq (h : Yields s t) (id : NodeId) : (t.node id).error = s.arena.errorAt id := by
  rw [ParseTree.node, h.nodes_eq, Arena.errorAt]
  cases s.arena.nodes[id]? <;> rfl

theorem discards_eq (h : Yields s t) (id : NodeId) :
    (t.node id).discards = s.arena.discardsAt id := by
  rw [ParseTree.node, h.nodes_eq, Arena.discardsAt]
  cases s.arena.nodes[id]? <;> rfl

theorem errors_eq (h : Yields s t) :
    t.reported.toList.filterMap (fun id => (t.node id).error) = s.arena.errors := by
  rw [h.reported_eq, Arena.errors]
  exact congrArg (fun g => s.arena.reported.toList.filterMap g) (funext h.error_eq)

/-- **The errors of a tree** are those of the nodes of the arena. -/
theorem mem_diagnostics (h : Yields s t) :
    e ∈ t.diagnostics ↔ ∃ id, s.arena.errorAt id = some e := by
  rw [ParseTree.diagnostics, List.mem_mergeSort, h.errors_eq, h.reports.mem_errors]

end Yields

end Parser

end PipeQuery

import PipeQuery.Proofs.Parser.Course

/-!
# What a parse comes to

A parse that is over before its end has a reason, and comes to no tree. There are three reasons:
more rules were open than allowed; the first error of a parse that bails out; or, in a parse that
recovers, an error behind which no place to go on was found. In a query that is found at the next
pipe, so there is no pipe behind such an error.

## Main definitions

* `Concludes`: a run that has a tree, or has a reason to have none
* `Failure.Fits`: a reason that a parse can have, by what it does at an error
* `Classified`: what is known of the last error, and of the reason that the parse is over
* `Searched`: within a query, no pipe was dropped since the last error

## Main results

* `run_concludes`: how each run ends
* `classified_kept`, `searched_kept`: what the acts of a parse keep of this
* `parse_failures`: the reasons of a parse that has no tree
-/

namespace PipeQuery

open Token (Kind KindSet)

/-- A reason that a parse can have for its end, by what it does at an error. -/
def Failure.Fits (strategy : Strategy) : Failure → Prop
  | bailed _ => strategy = .bail
  | unrecoverable e => strategy = .recover ∧ e.token.kind ≠ .endOfInput
  | tooDeep _ => True
  | emptyInput => False

namespace Parser

variable {strategy : Strategy} {keeps : Prop} {s s' t : State} {options : Options}
  {tokens : List Token} {e : SyntaxError} {failure : Failure} {entry : Entry}

/-! ## Roots -/

theorem root_openNode (a : Arena) (label : Label) (parent : Option NodeId) (start : Nat)
    (h : a.root.isSome = true) : (a.openNode label parent start).root.isSome = true := by
  cases parent with
  | some id => exact h
  | none =>
    show (a.root.or (some a.size)).isSome = true
    rw [Option.isSome_or, h, Bool.true_or]

theorem root_wrap (a : Arena) (prev : NodeId) (label : Label) (stop : Nat)
    (h : a.root.isSome = true) : (a.wrap prev label stop).root.isSome = true := by
  simp only [Arena.wrap, Arena.modify]
  split
  · exact h
  · rfl

theorem root_leave (h : s.arena.root.isSome = true) : s.leave.arena.root.isSome = true := by
  rw [State.leave]
  split <;> exact h

/-- **A parse that has a root keeps one.** -/
theorem root_kept : Kept strategy keeps fun s => s.arena.root.isSome = true := by
  constructor
  case act =>
    intro s s' _ h hs
    cases h with
    | relabel | consume | drop | stray | giveUp | close => exact hs
    | wrap label =>
      rw [State.wrap]
      split
      · exact hs
      · exact root_wrap _ _ _ _ hs
    | @report id n e =>
      rcases report_arena strategy id e s with harena | harena
      · rw [harena]
        exact hs
      · rw [harena, Arena.root_attach]
        exact hs
    | tooDeep =>
      show (s.arena.attach s.node _).root.isSome = true
      rw [Arena.root_attach]
      exact hs
  case enter => exact fun r floor hs => root_openNode _ _ _ _ hs
  case leave => exact fun _ hs _ => root_leave hs

theorem Arrives.root (h : Arrives strategy keeps tokens t) : t.arena.root.isSome = true := by
  have hs := TokenStream.proper_ofList tokens
  cases h with
  | @closed r floor v t h ht =>
    -- The node of the first rule that is opened is a root.
    refine root_kept.acts ht ?_ (root_leave (root_kept.acts h hs rfl))
    rw [stream_leave]
    exact h.advances.proper hs
  | @matched u h hk =>
    have hu : u.arena.root.isSome = true := root_kept.acts h hs rfl
    exact root_leave (s := u.consume) hu

/-! ## The ends of runs -/

/-- A run that has a tree and no reason to have none, or has halted for a reason. -/
def Concludes : Result → Prop
  | .ok _ s => s.failure = none ∧ ∃ t, finish s = .ok t
  | .error .halt s => ∃ failure, s.failure = some failure ∧ finish s = .error failure
  | .error .resync _ => False

/-- A run halts only for a reason. -/
theorem run_ends (entry : Entry) (options : Options) (tokens : List Token) :
    Ends (entry.run options (.start (.ofList tokens))) ∧
      ∀ s, entry.run options (.start (.ofList tokens)) ≠ .error .resync s := by
  have hstart : (State.start (.ofList tokens)).Going := ⟨rfl, fun h => by cases h⟩
  have hrun := run_runsTo entry options tokens
  generalize entry.run options (.start (.ofList tokens)) = res at hrun ⊢
  cases hrun with
  | tooDeep => exact closing_ends (failTooDeep_ends _ _)
  | query _ h =>
    exact closing_ends (expectOneOf_ends (h.ends (opened_going tokens)).1 options.strategy _)
  | queryStop _ h => exact closing_ends (h.ends (opened_going tokens)).1
  | expression h => exact trailing_ends (h.ends hstart).1 options.strategy
  | expressionStop h => exact h.ends hstart

/-- **Each run has a tree, or has halted for a reason.** -/
theorem run_concludes (entry : Entry) (options : Options) (tokens : List Token) :
    Concludes (entry.run options (.start (.ofList tokens))) := by
  obtain ⟨hends, hresync⟩ := run_ends entry options tokens
  have harrives := run_arrives entry options tokens
  cases hres : entry.run options (.start (.ofList tokens)) with
  | ok _ s =>
    rw [hres] at hends harrives
    obtain ⟨root, hroot⟩ := Option.isSome_iff_exists.mp harrives.root
    have hfinish : s.arena.finish s.stream.tokens =
        some ⟨s.stream.tokens, s.arena.nodes, root, s.arena.reported⟩ := by
      rw [Arena.finish, show s.arena.root = some root from hroot]
      rfl
    refine ⟨hends.failure_eq, ⟨s.stream.tokens, s.arena.nodes, root, s.arena.reported⟩, ?_⟩
    rw [finish, hends.failure_eq, hfinish]
  | error a s =>
    rw [hres] at hends
    cases a with
    | resync => exact hresync s hres
    | halt =>
      obtain ⟨failure, hf⟩ := Option.isSome_iff_exists.mp hends
      exact ⟨failure, hf, finish_of_failure hf⟩

/-! ## Reasons -/

/-- What is known of the last error, and of the reason that the parse is over. -/
structure Classified (strategy : Strategy) (s : State) : Prop where
  remembered : ∀ e, s.lastError = some e →
    strategy = .recover ∧ e.index ≤ s.cursor ∧ s.stream.tokens[e.index]? = some e.token
  fits : ∀ failure, s.failure = some failure → failure.Fits strategy

/-- Tokens may be read, and no error is met. -/
theorem Classified.advance (h : Classified strategy s) (hadv : Advances s.stream s'.stream)
    (he : s'.lastError = s.lastError) (hf : s'.failure = s.failure) : Classified strategy s' := by
  constructor
  case remembered =>
    intro e heq
    obtain ⟨hrecover, hle, htoken⟩ := h.remembered e (he ▸ heq)
    exact ⟨hrecover, Nat.le_trans hle hadv.cursor_le, hadv.tokens_eq ▸ htoken⟩
  case fits => exact hf ▸ h.fits

/-- The first reason is kept. -/
theorem Classified.terminate (h : Classified strategy s) (hfits : failure.Fits strategy) :
    Classified strategy (s.terminate failure) := by
  constructor
  case remembered => exact h.remembered
  case fits =>
    intro failure' hf
    rcases Option.or_eq_some_iff.mp hf with hold | ⟨-, hnew⟩
    · exact h.fits failure' hold
    · cases hnew
      exact hfits

theorem Classified.leave (h : Classified strategy s) : Classified strategy s.leave := by
  rw [State.leave]
  split
  · exact h
  · exact h.advance (.refl _) rfl rfl

/-- The error that is met is remembered, or is the reason. -/
theorem Classified.report (h : Classified strategy s) (hs : s.stream.Proper) (he : Meets s e)
    (id : NodeId) : Classified strategy (Result.state (report strategy id e s)) := by
  rw [report_state]
  split
  · exact h
  · have hattach :
        Classified strategy (s.raise id e) :=
      h.advance (.refl _) rfl rfl
    cases strategy with
    | bail => exact hattach.terminate rfl
    | recover =>
      constructor
      case remembered =>
        intro e' heq
        cases heq
        refine ⟨rfl, Nat.le_of_eq he.index_eq, ?_⟩
        rw [he.index_eq, he.token_eq]
        exact hs.getElem?_cursor
      case fits => exact h.fits

/-- What was read before a token that is left is no end of the input. -/
theorem kind_ne_of_le (hs : s.stream.Proper) (hk : s.kindAt 1 ≠ .endOfInput) {i : Nat}
    (hi : i ≤ s.cursor) {token : Token} (ht : s.stream.tokens[i]? = some token) :
    token.kind ≠ .endOfInput := by
  have hadd := ((advances_consume s.stream).proper hs).cursor_add
  rw [cursor_consume hs hk, TokenStream.size, s.stream.tokens_consume] at hadd
  have hlt : i + 1 < s.stream.size := by
    rw [TokenStream.size, ← hadd]
    have hi : i ≤ s.stream.cursor := hi
    omega
  exact hs.kind_ne hlt ht

/-- **The reasons of a parse** are those that it can have. -/
theorem classified_kept : Kept strategy keeps (Classified strategy) := by
  constructor
  case act =>
    intro s s' hs h hc
    cases h with
    | relabel | close => exact hc.advance (.refl _) rfl rfl
    | wrap label =>
      rw [State.wrap]
      split
      · exact hc
      · exact hc.advance (.refl _) rfl rfl
    | consume | drop => exact hc.advance (advances_consume _) rfl rfl
    | report _ he _ => exact hc.report hs he _
    | stray => exact hc.advance ((advances_consume _).trans (advances_consume _)) rfl rfl
    | @giveUp id e hskips hk hl =>
      -- The error was met before the last token that was dropped, or at it.
      obtain ⟨hrecover, hle, htoken⟩ := hc.remembered e hl
      have hdrop : Classified strategy { s.discard id with lastError := none } :=
        ⟨(fun _ he => by cases he), hc.fits⟩
      exact hdrop.terminate ⟨hrecover, kind_ne_of_le hs hskips.kind_ne hle htoken⟩
    | tooDeep limit =>
      have hattach : Classified strategy
          { s with arena := s.arena.attach s.node (s.errorHere (.tooDeep limit) ∅) } :=
        hc.advance (.refl _) rfl rfl
      exact hattach.terminate trivial
  case enter => exact fun _ _ hc => hc.advance (.refl _) rfl rfl
  case leave => exact fun _ hc _ => hc.leave

theorem Arrives.classified (h : Arrives strategy keeps tokens t) : Classified strategy t := by
  have hstart : Classified strategy (.start (.ofList tokens)) :=
    ⟨(fun _ he => by cases he), fun _ hf => by cases hf⟩
  rcases classified_kept.arrives h hstart with ht | ⟨u, rfl, hu, -⟩
  · exact ht
  · have hend : Classified strategy u.consume := hu.advance (advances_consume _) rfl rfl
    exact hend.leave

/-! ## Pipes -/

/-- No pipe stands at the places from `i` up to `j`. -/
def Pipeless (ts : Array Token) (i j : Nat) : Prop :=
  ∀ k token, i ≤ k → k < j → ts[k]? = some token → token.kind ≠ .pipe

/-- A state in a query. Since the last error no pipe was dropped, and there is none behind an error
that ended the parse. -/
structure Searched (s : State) : Prop where
  query_mem : .query ∈ s.frames.map Frame.rule
  since : s.failure = none → s.recovering = true → ∀ e, s.lastError = some e →
    Pipeless s.stream.tokens e.index s.cursor
  behind : ∀ e, s.failure = some (.unrecoverable e) →
    Pipeless s.stream.tokens e.index s.stream.size

theorem Pipeless.succ {ts : Array Token} {i j : Nat} (h : Pipeless ts i j)
    (hj : ∀ token, ts[j]? = some token → token.kind ≠ .pipe) : Pipeless ts i (j + 1) := by
  intro k token hlow hhigh ht
  rcases Nat.lt_succ_iff_lt_or_eq.mp hhigh with hlt | rfl
  · exact h k token hlow hlt ht
  · exact hj token ht

/-- While a query is open, the token that is dropped is no pipe. -/
theorem State.Skips.ne_pipe (h : s.Skips) (hquery : .query ∈ s.frames.map Frame.rule)
    (hs : s.stream.Proper) (token : Token) (ht : s.stream.tokens[s.cursor]? = some token) :
    token.kind ≠ .pipe := by
  rw [State.cursor, hs.getElem?_cursor] at ht
  cases ht
  intro hpipe
  have hnot := h.not_resync
  rw [State.kindAt, TokenStream.kindAt, hpipe, contains_resyncSet_pipe hquery] at hnot
  cases hnot

/-- What is told of the last error is to be shown anew. -/
theorem Searched.advance (h : Searched s) (htokens : s'.stream.tokens = s.stream.tokens)
    (hframes : s'.frames.map Frame.rule = s.frames.map Frame.rule) (hf : s'.failure = s.failure)
    (hsince : s'.failure = none → s'.recovering = true → ∀ e, s'.lastError = some e →
      Pipeless s.stream.tokens e.index s'.cursor) : Searched s' := by
  constructor
  case query_mem => exact hframes ▸ h.query_mem
  case since => exact htokens ▸ hsince
  case behind =>
    rw [TokenStream.size, htokens, hf]
    exact h.behind

/-- The token that is dropped is no pipe. -/
theorem Searched.discard (h : Searched s) (hs : s.stream.Proper) (hskips : s.Skips) (id : NodeId) :
    Searched (s.discard id) := by
  refine h.advance s.stream.tokens_consume rfl rfl fun hf hr e he => ?_
  have hcursor : (s.discard id).cursor = s.cursor + 1 := cursor_consume hs hskips.kind_ne
  rw [hcursor]
  exact (h.since hf hr e he).succ (hskips.ne_pipe h.query_mem hs)

/-- The parse is over, and the first reason is kept. -/
theorem Searched.terminate (h : Searched s) (hstream : s'.stream = s.stream)
    (hframes : s'.frames = s.frames) (hf : s'.failure = s.failure)
    (hbehind : s.failure = none → ∀ e, failure = .unrecoverable e →
      Pipeless s.stream.tokens e.index s.stream.size) :
    Searched (s'.terminate failure) := by
  constructor
  case query_mem =>
    rw [State.terminate, hframes]
    exact h.query_mem
  case since => exact fun hnone => absurd hnone (failure_terminate_ne _ _)
  case behind =>
    intro e he
    rw [State.terminate, hf] at he
    rw [State.terminate, hstream]
    rcases Option.or_eq_some_iff.mp he with hold | ⟨hnone, hnew⟩
    · exact h.behind e hold
    · exact hbehind hnone e (Option.some.inj hnew)

/-- Behind the error that ends the parse there is nothing but what was dropped. -/
theorem Searched.giveUp (h : Searched s) (hs : s.stream.Proper) (hskips : s.Skips) {id : NodeId}
    (hk : (s.discard id).kindAt 1 = .endOfInput) (he : s.lastError = some e) :
    Searched ({ s.discard id with lastError := none }.terminate (.unrecoverable e)) := by
  have hs' : (s.discard id).stream.Proper := (advances_consume s.stream).proper hs
  have hdrop := h.discard hs hskips id
  refine hdrop.terminate rfl rfl rfl fun hf e' heq => ?_
  cases heq
  -- The token that is left is the end of the input.
  have hsize : (s.discard id).stream.size = (s.discard id).cursor + 1 := by
    have hnil : (s.discard id).stream.coming = [] := hs'.coming_eq_nil (hs'.kindAt_one ▸ hk)
    rw [← hs'.cursor_add, hnil]
    rfl
  rw [hsize]
  refine (hdrop.since hf hskips.recovering_eq e he).succ fun token ht => ?_
  rw [State.cursor, hs'.getElem?_cursor] at ht
  cases ht
  rw [← TokenStream.kindAt, ← State.kindAt, hk]
  decide

/-- No pipe was dropped since an error that is met now. -/
theorem Searched.report (h : Searched s) (he : Meets s e) (id : NodeId) :
    Searched (Result.state (report strategy id e s)) := by
  rw [report_state]
  split
  · exact h
  · cases strategy with
    | bail => exact h.terminate rfl rfl rfl fun _ _ heq => by cases heq
    | recover =>
      refine h.advance rfl rfl rfl fun _ _ e' heq k token hlow hhigh => ?_
      cases heq
      exact absurd hhigh (Nat.not_lt_of_le (he.index_eq ▸ hlow))

/-- **While a query is open, no pipe is dropped.** -/
theorem searched_kept : Kept strategy keeps Searched := by
  constructor
  case act =>
    intro s s' hs h hc
    cases h with
    | relabel | close => exact hc.advance rfl rfl rfl hc.since
    | wrap label =>
      rw [State.wrap]
      split
      · exact hc
      · rename_i hframes
        exact hc.advance rfl (by rw [hframes]; rfl) rfl hc.since
    | consume => exact hc.advance s.stream.tokens_consume rfl rfl fun _ hr => by cases hr
    | report _ he _ => exact hc.report he _
    | drop hid hskips => exact hc.discard hs hskips _
    | stray =>
      refine hc.advance ?_ rfl rfl fun _ hr => by cases hr
      exact (TokenStream.tokens_consume _).trans (TokenStream.tokens_consume _)
    | giveUp hskips hk he => exact hc.giveUp hs hskips hk he
    | tooDeep => exact hc.terminate rfl rfl rfl fun _ _ heq => by cases heq
  case enter =>
    exact fun _ _ hc => ⟨List.mem_cons_of_mem _ hc.query_mem, hc.since, hc.behind⟩
  case leave =>
    intro s s' hs hc hframes
    constructor
    case query_mem => exact hframes ▸ hs.query_mem
    case since =>
      rw [failure_leave, recovering_leave, lastError_leave, stream_leave, cursor_leave]
      exact hc.since
    case behind =>
      rw [failure_leave, stream_leave]
      exact hc.behind

/-! ## Parses without a tree -/

/-- Where no bracket is closed, a query goes on to the end of the input. -/
theorem coming_eq_nil_of_leaves (hs : s.stream.Proper)
    (htokens : s.stream.tokens = (TokenStream.ofList tokens).tokens)
    (hbody : ∀ token ∈ TokenStream.body tokens, token.kind ≠ .rightBracket)
    (hleaves : next s.coming = .endOfInput ∨ next s.coming = .rightBracket) : s.coming = [] := by
  refine hs.coming_eq_nil (hleaves.resolve_right fun hbracket => ?_)
  have hne : s.coming ≠ [] := by
    intro hnil
    rw [hnil] at hbracket
    cases hbracket
  -- A bracket that comes next is one of the tokens.
  have hmem : Kind.rightBracket ∈ s.coming := by
    obtain ⟨k, w, hw⟩ := List.exists_cons_of_ne_nil hne
    rw [hw, next_cons] at hbracket
    rw [hw, hbracket]
    exact List.mem_cons_self
  have htoList : s.stream.tokens.toList =
      TokenStream.body tokens ++ [TokenStream.closing tokens] := by
    rw [htokens, TokenStream.toList_tokens_ofList]
  have hcursor : s.stream.cursor ≤ (TokenStream.body tokens).length := by
    have hadd := hs.cursor_add
    rw [TokenStream.size_eq htoList] at hadd
    omega
  rw [State.coming, TokenStream.coming_eq htoList hcursor] at hmem
  obtain ⟨token, ht, hkind⟩ := List.mem_map.mp hmem
  exact hbody token (List.mem_of_mem_drop ht) hkind

/-- **Behind an error that ends the parse of a query there is no pipe**, if the query closes no
bracket. -/
theorem query_pipeless
    (hbody : ∀ token ∈ TokenStream.body tokens, token.kind ≠ .rightBracket)
    (h : Entry.statement.run options (.start (.ofList tokens)) = .error .halt t)
    (hf : t.failure = some (.unrecoverable e)) :
    Pipeless (TokenStream.ofList tokens).tokens e.index (TokenStream.ofList tokens).size := by
  replace h : parseRule options options.maxDepth .singleStatement 0 (.start (.ofList tokens)) =
    .error .halt t := h
  cases hd : options.maxDepth with
  | zero =>
    rw [hd, parseRule, within_eq] at h
    cases h
    cases hf
  | succ d =>
    rw [hd, parseRule_statement] at h
    obtain ⟨v, hv, hacts, -, hresync, hleaves⟩ := query_acts options True d tokens
    have hs := opened_proper tokens
    have htokens : v.stream.tokens = (TokenStream.ofList tokens).tokens := hacts.advances.tokens_eq
    cases hq : parseRule options d .query 0 (opened tokens) with
    | ok _ u =>
      -- The query ends with the input, so the parse has a tree.
      rw [hq] at h hv
      obtain rfl : u = v.leave := hv
      have hproper : v.leave.stream.Proper := by
        rw [stream_leave]
        exact hacts.advances.proper hs
      have hnil := coming_eq_nil_of_leaves hproper ((congrArg _ (stream_leave v)).trans htokens)
        hbody (hleaves _ hq)
      have hk : (KindSet.ofList [.endOfInput]).contains (v.leave.kindAt 1) = true := by
        rw [kindAt_one hproper, hnil]
        decide
      have hend : expectOneOf options.strategy (.ofList [.endOfInput]) v.leave =
          .ok () v.leave.consume := by rw [expectOneOf_eq, if_pos hk]
      cases (congrArg closing hend).symm.trans h
    | error b u =>
      rw [hq] at h hv
      obtain rfl : u = v.leave := hv
      cases b with
      | resync => exact absurd hq (hresync _)
      | halt =>
        cases h
        rw [failure_leave, failure_leave] at hf
        have hsearched : Searched v := by
          refine searched_kept.acts hacts hs ⟨List.mem_cons_self, ?_, ?_⟩
          · exact fun _ hr => by cases hr
          · exact fun _ hf => by cases hf
        rw [TokenStream.size, ← htokens]
        exact hsearched.behind e hf

/-- A parse without a tree has nothing to parse, or has halted for a reason. -/
theorem parse_error (h : entry.parse options tokens = .error failure) :
    ((TokenStream.ofList tokens).isEmpty = true ∧ failure = .emptyInput) ∨
    ∃ s, entry.run options (.start (.ofList tokens)) = .error .halt s ∧
      s.failure = some failure := by
  by_cases hempty : (TokenStream.ofList tokens).isEmpty = true
  · refine .inl ⟨hempty, ?_⟩
    cases entry <;> exact (Except.error.inj (((run_eq ..).trans (if_pos hempty)).symm.trans h)).symm
  · rw [Bool.not_eq_true] at hempty
    rw [parse_eq_finish entry hempty] at h
    -- A run that comes to its end leaves a tree, so this one has halted.
    have hrun := run_concludes entry options tokens
    cases hres : entry.run options (.start (.ofList tokens)) with
    | ok _ s =>
      rw [hres] at h hrun
      obtain ⟨-, t, ht⟩ := hrun
      cases ht.symm.trans h
    | error a s =>
      rw [hres] at h hrun
      cases a with
      | resync => exact hrun.elim
      | halt =>
        obtain ⟨failure', hf, hfinish⟩ := hrun
        cases hfinish.symm.trans h
        exact .inr ⟨s, rfl, hf⟩

theorem isEmpty_iff : (TokenStream.ofList tokens).isEmpty = true ↔
    ∀ token ∈ tokens.head?, token.kind = .endOfInput := by
  have hsize := TokenStream.size_eq (TokenStream.toList_tokens_ofList tokens)
  rw [TokenStream.isEmpty, beq_iff_eq, hsize, Nat.succ_inj, List.length_eq_zero_iff]
  cases tokens with
  | nil => exact iff_of_true rfl fun _ h => by cases h
  | cons token ts =>
    rw [TokenStream.body, List.takeWhile_cons]
    cases heof : token.isEof <;> simp [← Token.isEof_iff, heof]

/-- **How parses end.** A run that has halted has a reason, and no other run has one; a tree comes
of a run that has not halted. There is nothing to parse if the tokens start with an end of input,
or if there are none. A parse bails out only if it is told to, and it gives up only if it recovers.
Then the error that it tells of is not met at the end of the input; and in a query that closes no
bracket, no pipe is behind the error. -/
theorem parse_failures (entry : Entry) (options : Options) (tokens : List Token) :
    Concludes (entry.run options (.start (.ofList tokens))) ∧
    (∀ t, entry.parse options tokens = .ok t →
      ∃ s, entry.run options (.start (.ofList tokens)) = .ok () s ∧
        s.arena.finish s.stream.tokens = some t) ∧
    (entry.parse options tokens = .error .emptyInput ↔
      ∀ token ∈ tokens.head?, token.kind = .endOfInput) ∧
    (∀ e, entry.parse options tokens = .error (.bailed e) → options.strategy = .bail) ∧
    ∀ e, entry.parse options tokens = .error (.unrecoverable e) →
      options.strategy = .recover ∧ e.token.kind ≠ .endOfInput ∧
      (entry = .statement → (∀ token ∈ TokenStream.body tokens, token.kind ≠ .rightBracket) →
        ∀ k token, e.index ≤ k → (TokenStream.body tokens)[k]? = some token →
          token.kind ≠ .pipe) := by
  have hclassified := (run_arrives entry options tokens).classified
  have hfits {failure : Failure} (hne : failure ≠ .emptyInput)
      (h : entry.parse options tokens = .error failure) : failure.Fits options.strategy := by
    rcases parse_error h with ⟨-, heq⟩ | ⟨s, hrun, hf⟩
    · exact absurd heq hne
    · rw [hrun] at hclassified
      exact hclassified.fits failure hf
  refine ⟨run_concludes entry options tokens, fun t h => ?_, ?_, fun e h => hfits (by simp) h,
    fun e h => ?_⟩
  · have hne : (TokenStream.ofList tokens).isEmpty = false := by
      cases entry <;> exact isEmpty_eq_false_of_run h (by simp)
    rw [parse_eq_finish entry hne] at h
    obtain ⟨hends, hresync⟩ := run_ends entry options tokens
    exact finish_ends hends hresync h
  · rw [← isEmpty_iff]
    constructor
    · intro h
      rcases parse_error h with ⟨hempty, -⟩ | ⟨s, hrun, hf⟩
      · exact hempty
      · -- A run never halts for want of tokens.
        rw [hrun] at hclassified
        exact (hclassified.fits .emptyInput hf).elim
    · intro hempty
      cases entry <;> exact (run_eq ..).trans (if_pos hempty)
  · obtain ⟨hrecover, hkind⟩ : Failure.Fits options.strategy (.unrecoverable e) := hfits (by simp) h
    refine ⟨hrecover, hkind, ?_⟩
    rintro rfl hbody k token hle ht
    rcases parse_error h with ⟨-, heq⟩ | ⟨s, hrun, hf⟩
    · cases heq
    · have hlt := (List.getElem?_eq_some_iff.mp ht).1
      refine query_pipeless hbody hrun hf k token hle ?_ ?_
      · rw [TokenStream.size_eq (TokenStream.toList_tokens_ofList tokens)]
        exact Nat.lt_succ_of_lt hlt
      · rw [← Array.getElem?_toList, TokenStream.toList_tokens_ofList,
          List.getElem?_append_left hlt]
        exact ht

/-- In `from s | limit 1 from s` no place to go on is found behind the second stage, and the only
pipe is before the error. -/
theorem parse_failures_unrecoverable :
    let w := [Kind.fromCmd, .sourceName, .pipe, .limitCmd, .integer, .fromCmd, .sourceName].map
      Token.ofKind
    ∃ e, Entry.parse ⟨20, .recover⟩ w .statement = .error (.unrecoverable e) ∧ e.index = 5 ∧
      e.token.kind ≠ .endOfInput ∧
      ∀ k token, 5 ≤ k → (TokenStream.body w)[k]? = some token → token.kind ≠ .pipe := by
  intro w
  have h : Entry.parse ⟨20, .recover⟩ w .statement = .error (.unrecoverable
      ⟨.noViable, .query, 5, .ofKind .fromCmd, Rule.query.follow⟩) := by
    decide +kernel
  obtain ⟨-, -, -, -, hunrecoverable⟩ := parse_failures .statement ⟨20, .recover⟩ w
  obtain ⟨-, hkind, hpipe⟩ := hunrecoverable _ h
  exact ⟨_, h, rfl, hkind, hpipe rfl (by decide)⟩

end Parser

end PipeQuery

import PipeQuery.Parser.Rules
import PipeQuery.Proofs.Parser.Lookahead
import PipeQuery.Proofs.Tree.Path

/-!
# How the state of a parse evolves

Whatever a parse does, with or without errors, is made of a few small changes of its state, and of
nodes that are opened and closed again. What all of these keep is kept by every part of every
parse: the tokens stay, the cursor never moves back, the arena consists of the nodes on and beside
the path of the open rules, and each of these has its share of the tokens up to the cursor.

## Main definitions

* `Edit`, `Evolves`: the small changes, and what a parse does to its state
* `Tracks`: a path that the open rules and the arena of a state are described by
* `State.Faulty`: some node has an error

## Main results

* `discardUntil_induction`: what is kept when a token is dropped is kept when tokens are dropped
* `Evolves.advances`: the tokens stay, and the cursor never moves back
* `Evolves.tracks`: the innermost open node takes up the tokens that the cursor passes
* `Evolves.faulty`: an error stays in the tree
* `Evolves.frames_eq`: the rules that are open are those that were open before
-/

namespace PipeQuery.Parser

open Token (Kind KindSet)

/-- The kinds of the tokens to come. -/
def State.coming (s : State) : List Kind := s.stream.coming

/-- How a part of a parse ends. -/
abbrev Result := EStateM.Result Abort State Unit

/-- The state in which a part of a parse ends. -/
def Result.state : Result → State
  | .ok _ s | .error _ s => s

/-- A small change of the state. -/
inductive Edit : State → State → Prop where
  | relabel (s : State) (label : Label) : Edit s (s.relabel label)
  | wrap (s : State) (label : Label) : Edit s (s.wrap label)
  | consume {s : State} (h : s.kindAt 1 ≠ .endOfInput) : Edit s s.consume
  /-- A token is dropped, which happens only while recovering. -/
  | discard {s : State} (h : s.kindAt 1 ≠ .endOfInput) (hr : s.recovering = true) :
    Edit s (s.discard s.node)
  /-- An error is met. -/
  | report (s : State) (strategy : Strategy) (cause : SyntaxError.Cause) (expected : KindSet) :
    Edit s (Result.state (reportHere strategy cause expected s))
  /-- Too many rules are open. -/
  | tooDeep (s : State) (limit : Nat) : Edit s (Result.state (failTooDeep limit s))
  /-- A place to go on is looked for. -/
  | search (s : State) : Edit s { s with recovering := true }
  /-- No place to go on is found. -/
  | giveUp {s : State} {e : SyntaxError} (h : s.lastError = some e) :
    Edit s ({ s with lastError := none }.terminate (.unrecoverable e))

/-- What a part of a parse does to its state. -/
inductive Evolves : State → State → Prop where
  | refl (s : State) : Evolves s s
  | edit {s s' : State} (h : Edit s s') : Evolves s s'
  | nest {s s' : State} {label : Label} {floor : Nat} (h : Evolves (s.enter label floor) s') :
    Evolves s s'.leave
  | trans {s s' s'' : State} (h : Evolves s s') (h' : Evolves s' s'') : Evolves s s''

variable {s s' : State}

/-! ## Errors that are met -/

/-- What is remembered of an error, and whether it ends the parse. -/
theorem report_state (strategy : Strategy) (id : NodeId) (e : SyntaxError) (s : State) :
    Result.state (report strategy id e s) =
      if s.recovering then s
      else
        let t : State := s.raise id e
        match strategy with
        | .bail => t.terminate (.bailed e)
        | .recover => { t with lastError := some e } := by
  rw [report]
  split
  · rfl
  · cases strategy <;> rfl

/-- An error changes neither the tokens nor the open rules. -/
theorem report_keeps (strategy : Strategy) (id : NodeId) (e : SyntaxError) (s : State) :
    (Result.state (report strategy id e s)).stream = s.stream ∧
      (Result.state (report strategy id e s)).frames = s.frames := by
  rw [report_state]
  split
  · exact ⟨rfl, rfl⟩
  · cases strategy <;> exact ⟨rfl, rfl⟩

/-- The node at which an error is met keeps it, at most. -/
theorem report_arena (strategy : Strategy) (id : NodeId) (e : SyntaxError) (s : State) :
    (Result.state (report strategy id e s)).arena = s.arena ∨
      (Result.state (report strategy id e s)).arena = s.arena.attach id e := by
  rw [report_state]
  split
  · exact .inl rfl
  · cases strategy <;> exact .inr rfl

/-! ## Tokens -/

/-- The tokens stay, and the cursor never moves back. -/
structure Advances (s s' : TokenStream) : Prop where
  tokens_eq : s'.tokens = s.tokens
  cursor_le : s.cursor ≤ s'.cursor
  proper : s.Proper → s'.Proper

theorem Advances.refl (s : TokenStream) : Advances s s := ⟨rfl, Nat.le_refl _, id⟩

theorem Advances.trans {s s' s'' : TokenStream} (h : Advances s s') (h' : Advances s' s'') :
    Advances s s'' :=
  ⟨h'.tokens_eq.trans h.tokens_eq, Nat.le_trans h.cursor_le h'.cursor_le,
    fun hs => h'.proper (h.proper hs)⟩

theorem advances_consume (s : TokenStream) : Advances s s.consume := by
  refine ⟨s.tokens_consume, ?_, fun hs => ?_⟩
  · rw [TokenStream.consume]
    split
    · exact Nat.le_refl _
    · exact Nat.le_succ _
  · cases hw : s.coming with
    | nil => rwa [hs.consume_of_nil hw]
    | cons k w => exact (hs.consume hw).1

@[simp]
theorem stream_leave (s : State) : s.leave.stream = s.stream := by
  rw [State.leave]
  split <;> rfl

@[simp]
theorem stream_wrap (s : State) (label : Label) : (s.wrap label).stream = s.stream := by
  rw [State.wrap]
  split <;> rfl

@[simp]
theorem failure_leave (s : State) : s.leave.failure = s.failure := by
  rw [State.leave]
  split <;> rfl

@[simp]
theorem recovering_leave (s : State) : s.leave.recovering = s.recovering := by
  rw [State.leave]
  split <;> rfl

@[simp]
theorem lastError_leave (s : State) : s.leave.lastError = s.lastError := by
  rw [State.leave]
  split <;> rfl

@[simp]
theorem failure_wrap (s : State) (label : Label) : (s.wrap label).failure = s.failure := by
  rw [State.wrap]
  split <;> rfl

@[simp]
theorem recovering_wrap (s : State) (label : Label) :
    (s.wrap label).recovering = s.recovering := by
  rw [State.wrap]
  split <;> rfl

@[simp]
theorem lastError_wrap (s : State) (label : Label) : (s.wrap label).lastError = s.lastError := by
  rw [State.wrap]
  split <;> rfl

@[simp]
theorem cursor_leave (s : State) : s.leave.cursor = s.cursor := by
  rw [State.cursor, stream_leave, State.cursor]

@[simp]
theorem cursor_wrap (s : State) (label : Label) : (s.wrap label).cursor = s.cursor := by
  rw [State.cursor, stream_wrap, State.cursor]

@[simp]
theorem coming_leave (s : State) : s.leave.coming = s.coming := by
  rw [State.coming, stream_leave, State.coming]

@[simp]
theorem coming_wrap (s : State) (label : Label) : (s.wrap label).coming = s.coming := by
  rw [State.coming, stream_wrap, State.coming]

@[simp]
theorem kindAt_leave (s : State) (k : Nat) : s.leave.kindAt k = s.kindAt k := by
  rw [State.kindAt, stream_leave, State.kindAt]

@[simp]
theorem kindAt_wrap (s : State) (label : Label) (k : Nat) :
    (s.wrap label).kindAt k = s.kindAt k := by
  rw [State.kindAt, stream_wrap, State.kindAt]

/-- The tokens to come are those of the stream. -/
theorem coming_eq_of_stream (h : s'.stream = s.stream) : s'.coming = s.coming := by
  rw [State.coming, h, State.coming]

/-- The kinds of the next tokens are those of the stream. -/
theorem kindAt_eq_of_stream (h : s'.stream = s.stream) (k : Nat) : s'.kindAt k = s.kindAt k := by
  rw [State.kindAt, h, State.kindAt]

/-- What holds, and still holds when a token is dropped, holds when tokens are dropped up to a
place. -/
theorem discardUntil_induction {P : State → Prop} {id : NodeId} {stop : KindSet} (n : Nat)
    (hs : P s) (hdiscard : ∀ t, P t → t.kindAt 1 ≠ .endOfInput →
      stop.contains (t.kindAt 1) = false → P (t.discard id)) : P (s.discardUntil id stop n) := by
  induction n generalizing s with
  | zero => exact hs
  | succ n ih =>
    rw [State.discardUntil]
    split
    · exact hs
    · rename_i hk
      simp only [Bool.or_eq_true, decide_eq_true_eq, not_or, Bool.not_eq_true] at hk
      exact ih (hdiscard s hs hk.1 hk.2)

/-- Dropping tokens changes the stream and the arena alone. -/
theorem discardUntil_eq (id : NodeId) (stop : KindSet) (n : Nat) (s : State) :
    ∃ stream arena, s.discardUntil id stop n = { s with stream, arena } := by
  refine discardUntil_induction (P := fun t => ∃ stream arena, t = { s with stream, arena }) n
    ⟨s.stream, s.arena, rfl⟩ ?_
  rintro t ⟨stream, arena, rfl⟩ - -
  exact ⟨_, _, rfl⟩

theorem discardUntil_advances (id : NodeId) (stop : KindSet) (n : Nat) (s : State) :
    Advances s.stream (s.discardUntil id stop n).stream :=
  discardUntil_induction (P := fun t => Advances s.stream t.stream) n (.refl _)
    fun t ht _ _ => ht.trans (advances_consume t.stream)

theorem Edit.advances (h : Edit s s') : Advances s.stream s'.stream := by
  cases h with
  | relabel | tooDeep | search | giveUp => exact .refl _
  | wrap label =>
    rw [stream_wrap]
    exact .refl _
  | consume | discard => exact advances_consume _
  | report strategy cause expected =>
    have hstream : (Result.state (reportHere strategy cause expected s)).stream = s.stream :=
      (report_keeps ..).1
    rw [hstream]
    exact .refl _

/-- **The tokens stay, and the cursor never moves back.** -/
theorem Evolves.advances (h : Evolves s s') : Advances s.stream s'.stream := by
  induction h with
  | refl s => exact .refl _
  | edit h => exact h.advances
  | nest _ ih =>
    rw [stream_leave]
    exact ih
  | trans _ _ ih ih' => exact ih.trans ih'

/-! ## Paths -/

/-- A path that the open rules and the arena of a state are described by. -/
structure Tracks (s : State) (p : Path) : Prop where
  builds : s.arena.Builds p
  frames_eq : s.frames.map Frame.node = p.map Site.id

variable {x x' : Site} {p : Path}

theorem Tracks.node_eq (h : Tracks s (x :: p)) : s.node = x.id := by
  have hframes := h.frames_eq
  rw [State.node]
  cases hs : s.frames with
  | nil => rw [hs] at hframes; cases hframes
  | cons f rest =>
    rw [hs] at hframes
    exact (List.cons.inj hframes).1

theorem Tracks.exists_frames (h : Tracks s (x :: p)) :
    ∃ f rest, s.frames = f :: rest ∧ f.node = x.id ∧ rest.map Frame.node = p.map Site.id := by
  have hframes := h.frames_eq
  cases hs : s.frames with
  | nil => rw [hs] at hframes; cases hframes
  | cons f rest =>
    rw [hs] at hframes
    obtain ⟨hf, hrest⟩ := List.cons.inj hframes
    exact ⟨f, rest, rfl, hf, hrest⟩

theorem Tracks.consume (h : Tracks s (x :: p)) :
    Tracks s.consume (Path.add (.token s.cursor) (x :: p)) := by
  refine ⟨?_, h.frames_eq⟩
  show (s.arena.push s.node _).Builds _
  rw [h.node_eq]
  exact h.builds.push (x := .token s.cursor) fun _ => rfl

theorem Tracks.discard (h : Tracks s (x :: p)) :
    Tracks (s.discard s.node) (Path.add (.discarded s.cursor) (x :: p)) := by
  refine ⟨?_, h.frames_eq⟩
  show (s.arena.push s.node _).Builds _
  rw [h.node_eq]
  exact h.builds.push (x := .discarded s.cursor) fun _ => rfl

/-- An error changes nothing but the node that keeps it. -/
theorem builds_report (h : s.arena.Builds (x :: p)) (strategy : Strategy) (e : SyntaxError) :
    ∃ e', (Result.state (report strategy x.id e s)).arena.Builds ({ x with error := e' } :: p) := by
  rcases report_arena strategy x.id e s with harena | harena
  · rw [harena]
    exact ⟨x.error, h⟩
  · rw [harena]
    exact h.exists_attach e

theorem Tracks.report (h : Tracks s (x :: p)) (strategy : Strategy) (cause : SyntaxError.Cause)
    (expected : KindSet) :
    ∃ e, Tracks (Result.state (reportHere strategy cause expected s)) ({ x with error := e } :: p) := by
  obtain ⟨-, hframes⟩ := report_keeps strategy x.id (s.errorHere cause expected) s
  obtain ⟨e, hb⟩ := builds_report h.builds strategy (s.errorHere cause expected)
  rw [reportHere, h.node_eq]
  exact ⟨e, hb, (congrArg _ hframes).trans h.frames_eq⟩

theorem Tracks.tooDeep (h : Tracks s (x :: p)) (limit : Nat) :
    ∃ e, Tracks (Result.state (failTooDeep limit s)) ({ x with error := e } :: p) := by
  obtain ⟨e, hb⟩ := h.builds.exists_attach (s.errorHere (.tooDeep limit) ∅)
  refine ⟨e, ?_, h.frames_eq⟩
  show (s.arena.attach s.node _).Builds _
  rw [h.node_eq]
  exact hb

theorem Tracks.relabel (h : Tracks s (x :: p)) (label : Label) :
    Tracks (s.relabel label) (Path.relabel label (x :: p)) := by
  have hb := h.builds.relabel label
  rw [← h.node_eq] at hb
  exact ⟨hb, h.frames_eq⟩

theorem Tracks.wrap (h : Tracks s (x :: p)) (label : Label) :
    Tracks (s.wrap label) (Path.wrap s.arena.size label s.cursor (x :: p)) := by
  obtain ⟨f, rest, hs, hf, hrest⟩ := h.exists_frames
  have hb := h.builds.wrap label s.cursor
  rw [State.wrap, hs]
  refine ⟨?_, ?_⟩
  · show (s.arena.wrap f.node label s.cursor).Builds _
    rw [hf]
    exact hb
  · simp [Path.wrap, hrest]

theorem Tracks.enter (h : Tracks s p) (label : Label) (floor : Nat) :
    Tracks (s.enter label floor) (Path.enter s.arena.size label s.cursor p) := by
  have htop : s.frames.head?.map Frame.node = p.top? := by
    rw [Path.top?, ← List.head?_map, ← List.head?_map, h.frames_eq]
  refine ⟨?_, ?_⟩
  · show (s.arena.openNode label _ s.cursor).Builds _
    rw [htop]
    exact h.builds.openNode label s.cursor
  · simp [State.enter, Path.enter, h.frames_eq]

theorem Tracks.leave (h : Tracks s (x :: x' :: p)) :
    Tracks s.leave (Path.leave s.cursor (x :: x' :: p)) := by
  obtain ⟨f, rest, hs, hf, hrest⟩ := h.exists_frames
  have hb := h.builds.leave s.cursor
  rw [State.leave, hs]
  refine ⟨?_, hrest⟩
  show (s.arena.close f.node s.cursor).Builds _
  rw [hf]
  exact hb

/-- The root stays when it is closed. -/
theorem Tracks.leave_root (h : Tracks s [x]) : s.leave.arena.Builds [x.close s.cursor] := by
  obtain ⟨f, rest, hs, hf, -⟩ := h.exists_frames
  have hb := h.builds.close s.cursor
  rw [← hf] at hb
  rw [State.leave, hs]
  exact hb

/-- The finished children of a node are the tokens from its start up to the cursor. -/
def Site.UpTo (x : Site) (cursor : Nat) : Prop :=
  Subtree.AllTile x.children x.span.start cursor

/-- What is closed before the cursor spans the tokens of its children. -/
theorem Site.UpTo.tiles {c : Nat} (h : Site.UpTo x c) :
    (x.close c).subtree.Tiles x.span.start c := by
  have hle : x.span.start ≤ c := Subtree.AllTile.le h
  refine ⟨?_, h⟩
  simp [Site.close, Nat.max_eq_left hle]

theorem cursor_consume (hs : s.stream.Proper) (h : s.kindAt 1 ≠ .endOfInput) :
    s.stream.consume.cursor = s.stream.cursor + 1 := by
  cases hw : s.stream.coming with
  | nil =>
    refine absurd ?_ h
    rw [State.kindAt, hs.kindAt_one, hw, next_nil]
  | cons k w => exact (hs.consume hw).2.2

/-- A small change changes the innermost open node alone, which takes up the tokens passed. -/
theorem Edit.tracks (h : Edit s s') (ht : Tracks s (x :: p)) :
    ∃ y, Tracks s' (y :: p) ∧ y.span.start = x.span.start ∧
      (s.stream.Proper → Site.UpTo x s.cursor → Site.UpTo y s'.cursor) := by
  -- The cursor moves over a token that is matched or dropped, and over nothing else.
  cases h with
  | search | giveUp => exact ⟨x, ⟨ht.builds, ht.frames_eq⟩, rfl, fun _ h => h⟩
  | report strategy cause expected =>
    obtain ⟨e, hreport⟩ := ht.report strategy cause expected
    refine ⟨_, hreport, rfl, fun _ h => ?_⟩
    have hcursor : (Result.state (reportHere strategy cause expected s)).cursor = s.cursor :=
      congrArg TokenStream.cursor (report_keeps ..).1
    rw [hcursor]
    exact h
  | tooDeep limit =>
    obtain ⟨e, hdeep⟩ := ht.tooDeep limit
    exact ⟨_, hdeep, rfl, fun _ h => h⟩
  | relabel label => exact ⟨_, ht.relabel label, rfl, fun _ h => h⟩
  | wrap label =>
    refine ⟨_, ht.wrap label, rfl, fun _ h => ?_⟩
    rw [cursor_wrap]
    exact ⟨_, h.tiles, rfl⟩
  | consume hk =>
    refine ⟨_, ht.consume, rfl, fun hs h => ?_⟩
    have hc : s.consume.cursor = s.cursor + 1 := cursor_consume hs hk
    rw [hc]
    exact h.append ⟨s.cursor + 1, ⟨rfl, rfl⟩, rfl⟩
  | discard hk =>
    refine ⟨_, ht.discard, rfl, fun hs h => ?_⟩
    have hc : (s.discard s.node).cursor = s.cursor + 1 := cursor_consume hs hk
    rw [hc]
    exact h.append ⟨s.cursor + 1, ⟨rfl, rfl⟩, rfl⟩

/-- A node that is closed is one more child of the node above it, with its tokens. -/
theorem Tracks.exists_add {y : Site} (hy : Tracks s (y :: x :: p)) :
    ∃ c : Subtree, Tracks s.leave (Path.add c (x :: p)) ∧
      (Site.UpTo y s.cursor → c.Tiles y.span.start s.cursor) :=
  ⟨_, hy.leave, fun h => h.tiles⟩

/-- **The innermost open node takes up the tokens that the cursor passes**, and no other open node
is changed. -/
theorem Evolves.tracks (h : Evolves s s') (ht : Tracks s (x :: p)) :
    ∃ y, Tracks s' (y :: p) ∧ y.span.start = x.span.start ∧
      (s.stream.Proper → Site.UpTo x s.cursor → Site.UpTo y s'.cursor) := by
  induction h generalizing x p with
  | refl s => exact ⟨x, ht, rfl, fun _ h => h⟩
  | edit h => exact h.tracks ht
  | @nest s s' label floor _ ih =>
    obtain ⟨y, hy, hstart, htiles⟩ := ih (ht.enter label floor)
    obtain ⟨c, hc, hsub⟩ := hy.exists_add
    refine ⟨_, hc, rfl, fun hs h => ?_⟩
    have hsub := hsub (htiles hs rfl)
    rw [hstart] at hsub
    rw [cursor_leave]
    exact h.append ⟨_, hsub, rfl⟩
  | trans h _ ih ih' =>
    obtain ⟨y, hy, hstart, htiles⟩ := ih ht
    obtain ⟨z, hz, hstart', htiles'⟩ := ih' hy
    exact ⟨z, hz, hstart'.trans hstart,
      fun hs hx => htiles' (h.advances.proper hs) (htiles hs hx)⟩

/-- A rule that is called is one more child of the innermost open node. -/
theorem Evolves.tracks_nest {label : Label} {floor : Nat} (h : Evolves (s.enter label floor) s')
    (ht : Tracks s (x :: p)) :
    ∃ c : Subtree, Tracks s'.leave (Path.add c (x :: p)) ∧
      (s.stream.Proper → c.Tiles s.cursor s'.cursor) := by
  obtain ⟨y, hy, hstart, htiles⟩ := h.tracks (ht.enter label floor)
  obtain ⟨c, hc, hsub⟩ := hy.exists_add
  refine ⟨c, hc, fun hs => ?_⟩
  have hsub := hsub (htiles hs rfl)
  rwa [hstart] at hsub

/-! ## Errors -/

/-- Some node has an error. -/
def State.Faulty (s : State) : Prop :=
  ∃ (id : NodeId) (n : Node), s.arena.nodes[id]? = some n ∧ n.error.isSome = true

/-- No node loses its error, or any node. -/
structure KeepsErrors (a b : Arena) : Prop where
  exists_error : ∀ (id : NodeId) (n : Node), a.nodes[id]? = some n → n.error.isSome = true →
    ∃ m : Node, b.nodes[id]? = some m ∧ m.error.isSome = true

theorem KeepsErrors.refl (a : Arena) : KeepsErrors a a := ⟨fun _ n hn he => ⟨n, hn, he⟩⟩

theorem KeepsErrors.trans {a b c : Arena} (h : KeepsErrors a b) (h' : KeepsErrors b c) :
    KeepsErrors a c := by
  refine ⟨fun id n hn he => ?_⟩
  obtain ⟨m, hm, hme⟩ := h.exists_error id n hn he
  exact h'.exists_error id m hm hme

theorem keepsErrors_modify (a : Arena) (id : NodeId) {f : Node → Node}
    (hf : ∀ n, n.error.isSome = true → (f n).error.isSome = true) :
    KeepsErrors a (a.modify id f) := by
  refine ⟨fun i n hn he => ?_⟩
  rw [Arena.getElem?_modify, hn]
  split
  · exact ⟨f n, rfl, hf n he⟩
  · exact ⟨n, rfl, he⟩

theorem keepsErrors_push (a : Arena) (id : NodeId) (slot : Slot) :
    KeepsErrors a (a.push id slot) :=
  keepsErrors_modify a id fun _ h => h

theorem keepsErrors_pushNode (a : Arena) (n : Node) : KeepsErrors a (a.pushNode n) := by
  refine ⟨fun i m hm he => ?_⟩
  have hlt : i < a.size := (Array.getElem?_eq_some_iff.mp hm).1
  exact ⟨m, (Arena.getElem?_pushNode_of_lt hlt n).trans hm, he⟩

theorem keepsErrors_openNode (a : Arena) (label : Label) (parent : Option NodeId) (start : Nat) :
    KeepsErrors a (a.openNode label parent start) := by
  cases parent with
  | none => exact ⟨(keepsErrors_pushNode a _).exists_error⟩
  | some id => exact (keepsErrors_pushNode a _).trans (keepsErrors_modify _ _ fun _ h => h)

theorem keepsErrors_wrap (a : Arena) (prev : NodeId) (label : Label) (stop : Nat) :
    KeepsErrors a (a.wrap prev label stop) := by
  have hclose : KeepsErrors a (a.close prev stop) := keepsErrors_modify _ _ fun _ h => h
  unfold Arena.wrap
  refine KeepsErrors.trans ?_ (keepsErrors_modify _ prev fun _ h => h)
  split
  · exact (hclose.trans (keepsErrors_pushNode _ _)).trans (keepsErrors_modify _ _ fun _ h => h)
  · exact hclose.trans ⟨(keepsErrors_pushNode _ _).exists_error⟩

theorem keepsErrors_attach (a : Arena) (id : NodeId) (e : SyntaxError) :
    KeepsErrors a (a.attach id e) := by
  rw [Arena.attach]
  split
  · have hmodify := keepsErrors_modify a id (f := fun n => { n with error := some e })
      fun _ _ => rfl
    exact ⟨hmodify.exists_error⟩
  · exact .refl _

theorem report_keepsErrors (strategy : Strategy) (id : NodeId) (e : SyntaxError) (s : State) :
    KeepsErrors s.arena (Result.state (report strategy id e s)).arena := by
  rcases report_arena strategy id e s with harena | harena
  · rw [harena]
    exact .refl _
  · rw [harena]
    exact keepsErrors_attach ..

theorem Edit.keepsErrors (h : Edit s s') : KeepsErrors s.arena s'.arena := by
  cases h with
  | search | giveUp => exact .refl _
  | report => exact report_keepsErrors ..
  | tooDeep => exact keepsErrors_attach ..
  | relabel label => exact keepsErrors_modify _ _ fun _ h => h
  | wrap label =>
    rw [State.wrap]
    split
    · exact .refl _
    · exact keepsErrors_wrap ..
  | consume | discard => exact keepsErrors_push ..

theorem keepsErrors_leave (s : State) : KeepsErrors s.arena s.leave.arena := by
  rw [State.leave]
  split
  · exact .refl _
  · exact keepsErrors_modify _ _ fun _ h => h

theorem Evolves.keepsErrors (h : Evolves s s') : KeepsErrors s.arena s'.arena := by
  induction h with
  | refl => exact .refl _
  | edit h => exact h.keepsErrors
  | nest _ ih => exact ((keepsErrors_openNode ..).trans ih).trans (keepsErrors_leave _)
  | trans _ _ ih ih' => exact ih.trans ih'

theorem KeepsErrors.faulty (h : KeepsErrors s.arena s'.arena) (hs : s.Faulty) : s'.Faulty := by
  obtain ⟨id, n, hn, he⟩ := hs
  obtain ⟨m, hm, hme⟩ := h.exists_error id n hn he
  exact ⟨id, m, hm, hme⟩

/-- **An error stays in the tree.** -/
theorem Evolves.faulty (h : Evolves s s') (hs : s.Faulty) : s'.Faulty :=
  h.keepsErrors.faulty hs

/-! ## Open rules -/

theorem Edit.frames_eq (h : Edit s s') : s'.frames.map Frame.rule = s.frames.map Frame.rule := by
  cases h with
  | relabel | consume | discard | tooDeep | search | giveUp => rfl
  | report strategy cause expected => exact congrArg _ (report_keeps ..).2
  | wrap label =>
    rw [State.wrap]
    split
    · rfl
    · rename_i hs
      simp [hs]

/-- The open rules stay. -/
theorem Evolves.frames_eq (h : Evolves s s') :
    s'.frames.map Frame.rule = s.frames.map Frame.rule := by
  induction h with
  | refl => rfl
  | edit h => exact h.frames_eq
  | @nest s s' label floor _ ih =>
    cases hframes : s'.frames with
    | nil => rw [hframes] at ih; cases ih
    | cons g rest =>
      rw [hframes] at ih
      have hleave : s'.leave.frames = rest := by rw [State.leave, hframes]
      rw [hleave]
      exact (List.cons.inj ih).2
  | trans _ _ ih ih' => exact ih'.trans ih

end PipeQuery.Parser

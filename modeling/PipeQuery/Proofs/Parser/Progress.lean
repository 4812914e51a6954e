import PipeQuery.Proofs.Parser.Course
import PipeQuery.Proofs.Parser.Orderly

/-!
# The progress of queries

A query goes round once for each stage. Where a stage is followed by neither a pipe nor an end, it
looks for such a place; the search drops nothing where some open rule can go on, and would then be
made again and again. But queries stand in no rules that could go on earlier. So each search drops
a token, or ends the parse, and what follows is another stage or the end of the query. No loop of
the parser goes round for ever, whatever the tokens are.

## Main definitions

* `Progresses`: a search for the end of a stage gets on
* `Unrolls`: a script is carried out, with loops that go round as long as they may

## Main results

* `Reaches.stands`: a parse stays within rules that are open
* `Executes.unrolls`: the loops of a parse end of themselves
* `query_progresses`: queries make progress, and parses end
-/

namespace PipeQuery.Parser

open Token (Kind KindSet)
open Script

variable {options : Options} {strategy : Strategy} {limit d f : Nat} {r r' : Rule} {tidy : Prop}
  {a : Slate} {m : Move} {p q : Script} {s s' t u : State} {x : Site} {path : Path} {res : Result}

/-! ## The places that a parse comes to -/

/-- Behind a rule that was called the calling rule goes on. -/
theorem Calls.stands (h : Calls strategy limit d r' f s (.ok () s')) (hs : Stands r a s x path)
    (hcalled : r'.Called f s.coming) (ho : r'.isOuter = true → r.isOuter = true) :
    (∃ y, Stands r a.behind s' y path) ∧ r'.Leaves s.coming s'.coming := by
  obtain ⟨v, hv, -, he, hleaves⟩ := h.acts False hs hcalled ho
  obtain rfl : s' = v.leave := hv
  exact ⟨hs.leave he, hleaves _ rfl⟩

/-- **A parse stays within rules that are open**: wherever it comes to, the rest of the script is
careful, and is one of the innermost rule. -/
theorem Reaches.stands (h : Reaches options d p s q u) (hs : Stands r a s x path)
    (hc : p.Careful r tidy a s.coming) (hp : p.Orderly) :
    ∃ r' tidy' a' x' path', Stands r' a' u x' path' ∧ q.Careful r' tidy' a' u.coming := by
  -- By induction on the way: each step leads from one such place to another.
  induction h generalizing r a x path tidy with
  | here => exact ⟨r, tidy, a, x, path, hs, hc⟩
  | @step d m p q s s' u h _ ih =>
    have hstep : Acted options.strategy False r tidy path p s _ := Move.run_acts hs hp.1.1 hc
    obtain ⟨b, y, hs', hc'⟩ := hstep.ok s' h
    exact ih hs' hc' hp.2
  | @into d f r' p q s u _ ih =>
    obtain ⟨hcalled, ho, -⟩ := hc
    exact ih (hs.enter ho f) (opening_careful hcalled fun h : False => h.elim)
      (opening_orderly hp.1.1 hp.1.2)
  | @behind d f r' p q s s' u h _ ih =>
    obtain ⟨hcalled, ho, hc'⟩ := hc
    have hcalls : Calls options.strategy options.maxDepth d r' f s _ :=
      parseRule_calls options hp.1.1 hs.proper
    rw [h] at hcalls
    obtain ⟨⟨y, hy⟩, hleaves⟩ := hcalls.stands hs hcalled ho
    exact ih hy (hc' _ hleaves) hp.2
  | go _ ih => exact ih hs (Phase.script_careful hc.1 hc.2) (Phase.script_orderly _)

/-! ## Searching for the end of a stage -/

/-- Where tokens were dropped up to the end of the input, the parse is over. -/
theorem recover_kind_ne (h : recover s = .ok () t) (hlt : s.cursor < t.cursor) :
    t.kindAt 1 ≠ .endOfInput := by
  intro heof
  rw [recover] at h
  split at h
  · split at h <;> cases h
  · rename_i hover
    cases h
    exact hover (by simp [heof, hlt])

theorem cursor_lt_of_length (hs : s.stream.Proper) (hadv : Advances s.stream t.stream)
    (hlt : t.coming.length < s.coming.length) : s.cursor < t.cursor := by
  have hadd := hs.cursor_add
  have hadd' := (hadv.proper hs).cursor_add
  have hsize : t.stream.size = s.stream.size := congrArg Array.size hadv.tokens_eq
  rw [State.coming, State.coming] at hlt
  rw [State.cursor, State.cursor]
  omega

/-- A search for the end of a stage, made at `u`, gets on. -/
structure Progresses (strategy : Strategy) (u : State) : Prop where
  /-- Only rules that queries stand in are open. -/
  outer : ∀ r ∈ u.frames.map Frame.rule,
    r ∈ [.singleStatement, .query, .sourceCommand, .explainCommand, .subqueryExpression]
  /-- The search ends the parse, or it drops tokens and finds the next stage, or the end of a
  query. -/
  ends : (∃ t, syncStage strategy u = .error .halt t) ∨
    ∃ t, syncStage strategy u = .ok () t ∧ u.cursor < t.cursor ∧
      (t.kindAt 1 = .pipe ∨ t.kindAt 1 = .rightBracket)
  /-- No search follows: the query goes on with a stage, or it is over. -/
  once : ∀ t sub n, syncStage strategy u = .ok () t → stages strategy sub 0 (n + 2) u =
    if t.kindAt 1 = .pipe then
      (do
        wrap .compositeQuery
        consume
        sub .processingCommand 0
        stages strategy sub 0 n : Run Unit) t
    else .ok () t

/-- A search for the end of a stage drops tokens up to the next stage, or to the end of a query. -/
theorem syncStage_found (hs : u.stream.Proper)
    (hout : ∀ r ∈ u.frames.map Frame.rule, r.isOuter = true)
    (hfollow : Rule.query.follow.contains (u.kindAt 1) = false)
    (ht : syncStage strategy u = .ok () t) :
    u.cursor < t.cursor ∧ (t.kindAt 1 = .pipe ∨ t.kindAt 1 = .rightBracket) := by
  have he := Move.sync.run_evolves trivial strategy hs
  rw [Move.run, ht] at he
  have hadv : Advances u.stream t.stream := he.advances
  have hlt := syncStage_length_lt hs hout (Bool.eq_false_iff.mp hfollow) ht
  have hcursor := cursor_lt_of_length hs hadv hlt
  have hstop := syncStage_stop hs hout ht
  rw [← kindAt_one (hadv.proper hs)] at hstop
  have hne : t.kindAt 1 ≠ .endOfInput := by
    obtain ⟨v, hv, ht⟩ := syncStage_ok_inv ht
    have hstream := (reportHere_ok (fail_resync hv)).1
    refine recover_kind_ne ht ?_
    rw [State.cursor, hstream]
    exact hcursor
  have hends : ∀ k : Kind, k ≠ .endOfInput → stageEnd.contains k = true →
      k = .pipe ∨ k = .rightBracket := by decide
  exact ⟨hcursor, hends _ hne hstop⟩

/-- **A search for the end of a stage gets on** while only rules that queries stand in are open. -/
theorem progresses (hs : u.stream.Proper)
    (hout : ∀ r ∈ u.frames.map Frame.rule, r.isOuter = true) (hpipe : u.kindAt 1 ≠ .pipe)
    (hfollow : Rule.query.follow.contains (u.kindAt 1) = false) : Progresses strategy u := by
  constructor
  case outer =>
    intro r hr
    have hmem : ∀ r : Rule, r.isOuter = true →
        r ∈ [.singleStatement, .query, .sourceCommand, .explainCommand, .subqueryExpression] := by
      intro r
      cases r <;> decide
    exact hmem r (hout r hr)
  case ends =>
    cases hsync : syncStage strategy u with
    | ok _ t => exact .inr ⟨t, rfl, syncStage_found hs hout hfollow hsync⟩
    | error b t =>
      cases b with
      | halt => exact .inl ⟨t, rfl⟩
      | resync => exact absurd hsync syncStage_ne_resync
  case once =>
    intro t sub n ht
    obtain ⟨-, hstop⟩ := syncStage_found hs hout hfollow ht
    -- One round is the search, and the next one finds a pipe or an end of the query.
    have hround : stages strategy sub 0 (n + 2) u = stages strategy sub 0 (n + 1) t := by
      rw [stages_succ, decide_eq_false hpipe, hfollow]
      exact bind_ok ht
    rw [hround, stages_succ]
    rcases hstop with hk | hk
    · rw [hk]
      rfl
    · rw [hk]
      rfl

/-! ## Loops that end of themselves -/

/-- A script is carried out from a state to an end. Its loops have no bound on their rounds: one
that would never end is not carried out to any end. -/
inductive Unrolls (strategy : Strategy) (limit : Nat) : Nat → Script → State → Result → Prop where
  | done {d : Nat} {s : State} : Unrolls strategy limit d .done s (.ok () s)
  | step {d : Nat} {m : Move} {p : Script} {s s' : State} {res : Result}
    (h : m.run strategy s = .ok () s') (hp : Unrolls strategy limit d p s' res) :
    Unrolls strategy limit d (.step m p) s res
  | stop {d : Nat} {m : Move} {p : Script} {s s' : State} {b : Abort}
    (h : m.run strategy s = .error b s') : Unrolls strategy limit d (.step m p) s (.error b s')
  | call {d f : Nat} {r : Rule} {p : Script} {s s' : State} {res res' : Result}
    (hb : Unrolls strategy limit d (opening r f s.coming) (s.enter (.ofRule r) f) res')
    (hc : closing res' = .ok () s') (hp : Unrolls strategy limit (d + 1) p s' res) :
    Unrolls strategy limit (d + 1) (.call r f p) s res
  | callStop {d f : Nat} {r : Rule} {p : Script} {s s' : State} {b : Abort} {res' : Result}
    (hb : Unrolls strategy limit d (opening r f s.coming) (s.enter (.ofRule r) f) res')
    (hc : closing res' = .error b s') :
    Unrolls strategy limit (d + 1) (.call r f p) s (.error b s')
  | deep {f : Nat} {r : Rule} {p : Script} {s : State} :
    Unrolls strategy limit 0 (.call r f p) s (closing (failTooDeep limit (s.enter (.ofRule r) f)))
  | go {d : Nat} {q : Phase} {s : State} {res : Result}
    (h : Unrolls strategy limit d (q.script s.coming) s res) :
    Unrolls strategy limit d (.go q) s res

/-- **The loops of a parse end of themselves.** -/
theorem Executes.unrolls (h : Executes strategy limit d p s res) (hs : Stands r a s x path)
    (hc : p.Careful r tidy a s.coming) : Unrolls strategy limit d p s res := by
  induction h generalizing r a x path tidy with
  | done => exact .done
  | @step d m p s s' res hm h _ ih =>
    have hstep : Acted strategy False r tidy path p s _ := Move.run_acts hs hm hc
    obtain ⟨b, y, hs', hc'⟩ := hstep.ok s' h
    exact .step h (ih hs' hc')
  | stop _ h => exact .stop h
  | @call d r' f p s s' res res' _ hb hcl _ ihb ihp =>
    obtain ⟨hcalled, ho, hc'⟩ := hc
    have hcalls : Calls strategy limit (d + 1) r' f s (.ok () s') := ⟨res', hb, hcl.symm⟩
    obtain ⟨⟨y, hy⟩, hleaves⟩ := hcalls.stands hs hcalled ho
    exact .call (ihb (hs.enter ho f) (opening_careful hcalled fun h : False => h.elim)) hcl
      (ihp hy (hc' _ hleaves))
  | @callStop d r' f p s s' b res' _ hb hcl ihb =>
    obtain ⟨hcalled, ho, -⟩ := hc
    exact .callStop (ihb (hs.enter ho f) (opening_careful hcalled fun h : False => h.elim)) hcl
  | deep => exact .deep
  | go _ ih => exact .go (ih hs (Phase.script_careful hc.1 hc.2))
  | @idle d f s hr hk hq =>
    -- A query that is open has no such place: no open rule could go on here.
    obtain ⟨rfl, -⟩ := hc.2
    have hend := resync_outer (hs.outer rfl) hk
    rw [kindAt_one hs.proper] at hend
    have hfollow : Rule.query.follow.contains (next s.coming) = true := hend
    rw [Phase.script, hfollow] at hq
    split at hq <;> cases hq

/-! ## Whole parses -/

/-- The loop of a query is come to within the query of the statement. -/
theorem reaches_stages {tokens : List Token} {φ : Phase}
    (h : Reaches options d (.only .singleStatement) (.start (.ofList tokens)) (.go φ) u) :
    ∃ r tidy a x path, Stands r a u x path ∧ (Script.go φ).Careful r tidy a u.coming := by
  cases h with
  | behind _ h => cases h
  | into h =>
    change Reaches options _ (.call .query 0 (token .endOfInput .done)) (opened tokens) _ _ at h
    cases h with
    | into h =>
      have hcalled : Rule.query.Called 0 (opened tokens).coming :=
        ⟨fun h => (by cases h), fun _ => rfl⟩
      exact h.stands ((opened_stands tokens).enter (fun _ => rfl) 0)
        (opening_careful hcalled fun h : False => h.elim)
        (opening_orderly (by decide) (Nat.zero_le _))
    | behind _ h =>
      -- Behind the query nothing is left but the end of the input.
      cases h with
      | step _ h => cases h

/-- What follows a rule that is called. -/
theorem Unrolls.bind {z y : Run Unit} (h : Unrolls strategy limit d (.only r) s (z s))
    (hy : ∀ t, Unrolls strategy limit d p t (y t)) :
    Unrolls strategy limit d (.call r 0 p) s ((z >>= fun _ => y) s) := by
  show Unrolls strategy limit d (.call r 0 p) s (EStateM.bind z _ s)
  rw [EStateM.bind]
  generalize z s = res at h
  cases h with
  | call hb hc hp =>
    cases hp
    exact .call hb hc (hy _)
  | callStop hb hc => exact .callStop hb hc
  | deep => exact .deep

theorem Unrolls.single_step : Unrolls strategy limit d (.step m .done) s (m.run strategy s) := by
  cases hrun : m.run strategy s with
  | ok _ t => exact .step hrun .done
  | error b t => exact .stop hrun

theorem Unrolls.single_call
    (hb : Unrolls strategy limit d (opening r 0 s.coming) (s.enter (.ofRule r) 0) res) :
    Unrolls strategy limit (d + 1) (.only r) s (closing res) := by
  cases hc : closing res with
  | ok _ t => exact .call hb hc .done
  | error b t => exact .callStop hb hc

/-- A statement is carried out with loops that end of themselves. -/
theorem statement_unrolls (options : Options) (d : Nat) (tokens : List Token) :
    Unrolls options.strategy options.maxDepth d (.only .singleStatement) (.start (.ofList tokens))
      (parseRule options d .singleStatement 0 (.start (.ofList tokens))) := by
  cases d with
  | zero =>
    rw [parseRule, within_eq]
    exact .deep
  | succ d =>
    have hs := opened_stands tokens
    have hquery : Executes options.strategy options.maxDepth d (.only .query) (opened tokens)
        (parseRule options d .query 0 (opened tokens)) :=
      .single_call (by decide) (query_calls options d tokens) hs.proper
    have hcareful : (only .query).Careful .singleStatement False .clean (opened tokens).coming :=
      ⟨⟨fun h => (by cases h), fun _ => rfl⟩, fun _ => rfl, fun _ _ => careful_done id⟩
    rw [parseRule, within_eq]
    exact .single_call ((hquery.unrolls hs hcareful).bind fun t => .single_step)

/-- **Queries make progress, and parses end.** Wherever the loop of a query comes to a token that is
neither a pipe nor an end of the query, only rules that queries stand in are open, and the search
for the end of the stage gets on. So a parse of any tokens ends, though its loops may go round as
long as they like. -/
theorem query_progresses (options : Options) (tokens : List Token) :
    (∀ f u, Reaches options options.maxDepth (.only .singleStatement) (.start (.ofList tokens))
        (.go (.stages f)) u →
      u.kindAt 1 ≠ .pipe → Rule.query.follow.contains (u.kindAt 1) = false →
      f = 0 ∧ Progresses options.strategy u) ∧
    ∃ res, Unrolls options.strategy options.maxDepth options.maxDepth (.only .singleStatement)
        (.start (.ofList tokens)) res ∧
      parseTokens options tokens =
        if (TokenStream.ofList tokens).isEmpty then .error .emptyInput
        else finish (Result.state res) := by
  constructor
  · intro f u h hpipe hfollow
    obtain ⟨r, tidy, a, x, path, hs, hc⟩ := reaches_stages h
    obtain ⟨rfl, rfl, -⟩ := hc.2
    exact ⟨rfl, progresses hs.proper (hs.outer rfl) hpipe hfollow⟩
  · exact ⟨_, statement_unrolls options options.maxDepth tokens, run_eq ..⟩

/-- What holds of the state behind a rule can be computed. -/
instance decidableExistsOk (res : Result) (P : State → Prop) [DecidablePred P] :
    Decidable (∃ u, res = .ok () u ∧ P u) :=
  match res with
  | .ok _ u => decidable_of_iff (P u) ⟨fun h => ⟨u, rfl, h⟩, fun ⟨_, hu, h⟩ => by cases hu; exact h⟩
  | .error _ _ => .isFalse fun ⟨_, hu, _⟩ => by cases hu

/-- In `from a b | limit 1` a search for the end of the first stage drops the name `b`. -/
theorem query_progresses_name :
    let options : Options := ⟨8, .recover⟩
    let tokens := [Kind.fromCmd, .sourceName, .name, .pipe, .limitCmd, .integer, .endOfInput].map
      Token.ofKind
    ∃ u, (Reaches options options.maxDepth (.only .singleStatement) (.start (.ofList tokens))
        (.go (.stages 0)) u ∧
      u.kindAt 1 ≠ .pipe ∧ Rule.query.follow.contains (u.kindAt 1) = false) ∧
      u.cursor = 2 ∧ Progresses options.strategy u := by
  intro options tokens
  obtain ⟨u, hu, hkind, hcursor⟩ : ∃ u,
      parseRule options 6 .sourceCommand 0
        (((opened tokens).enter (.ofRule .query) 0).relabel .singleCommandQuery) = .ok () u ∧
        u.kindAt 1 = .name ∧ u.cursor = 2 := by
    decide +kernel
  have hreach : Reaches options options.maxDepth (.only .singleStatement)
      (.start (.ofList tokens)) (.go (.stages 0)) u :=
    .into (.into (.step rfl (.behind hu .here)))
  have hpipe : u.kindAt 1 ≠ .pipe := by
    rw [hkind]
    decide
  have hfollow : Rule.query.follow.contains (u.kindAt 1) = false := by
    rw [hkind]
    decide
  exact ⟨u, ⟨hreach, hpipe, hfollow⟩, hcursor,
    ((query_progresses options tokens).1 0 u hreach hpipe hfollow).2⟩

end PipeQuery.Parser

import PipeQuery.Proofs.Parser.Moves

/-!
# Carrying out scripts

A script is carried out on a state of the parser, step by step: with errors or without, and with
any depth left. What is to be shown of all runs of the parser is shown of scripts.

## Main definitions

* `Executes`: a script is carried out from a state to an end
* `Calls`: a rule is called

## Main results

* `Executes.evolves`: what a script does to the state
* `Executes.bind_step`, `Executes.bind_call`: the steps of a parse, one after the other
-/

namespace PipeQuery.Parser

open Token (Kind KindSet)

/-- How a rule ends, once its body has ended. -/
def closing : Result → Result
  | .ok () s => .ok () s.leave
  | .error .halt s => .error .halt s.leave
  | .error .resync s =>
    match recover s with
    | .ok () s => .ok () s.leave
    | .error a s => .error a s.leave

theorem within_eq (label : Label) (floor : Nat) (body : Run Unit) (s : State) :
    within label floor body s = closing (body (s.enter label floor)) := by
  rw [within, recovering]
  cases body (s.enter label floor) with
  | ok => rfl
  | error a => cases a <;> rfl

/-- A script is carried out from a state to an end. The calls that it makes may open this many
rules, one below the other. -/
inductive Executes (strategy : Strategy) (limit : Nat) : Nat → Script → State → Result → Prop where
  | done {d : Nat} {s : State} : Executes strategy limit d .done s (.ok () s)
  | step {d : Nat} {m : Move} {p : Script} {s s' : State} {res : Result} (hm : m.Plain)
    (h : m.run strategy s = .ok () s') (hp : Executes strategy limit d p s' res) :
    Executes strategy limit d (.step m p) s res
  | stop {d : Nat} {m : Move} {p : Script} {s s' : State} {a : Abort} (hm : m.Plain)
    (h : m.run strategy s = .error a s') :
    Executes strategy limit d (.step m p) s (.error a s')
  | call {d : Nat} {r : Rule} {f : Nat} {p : Script} {s s' : State} {res res' : Result}
    (hr : r ≠ .singleStatement)
    (hb : Executes strategy limit d (opening r f s.coming) (s.enter (.ofRule r) f) res')
    (hc : closing res' = .ok () s') (hp : Executes strategy limit (d + 1) p s' res) :
    Executes strategy limit (d + 1) (.call r f p) s res
  | callStop {d : Nat} {r : Rule} {f : Nat} {p : Script} {s s' : State} {a : Abort} {res' : Result}
    (hr : r ≠ .singleStatement)
    (hb : Executes strategy limit d (opening r f s.coming) (s.enter (.ofRule r) f) res')
    (hc : closing res' = .error a s') :
    Executes strategy limit (d + 1) (.call r f p) s (.error a s')
  /-- Too many rules are open. -/
  | deep {r : Rule} {f : Nat} {p : Script} {s : State} (hr : r ≠ .singleStatement) :
    Executes strategy limit 0 (.call r f p) s (closing (failTooDeep limit (s.enter (.ofRule r) f)))
  | go {d : Nat} {q : Phase} {s : State} {res : Result}
    (h : Executes strategy limit d (q.script s.coming) s res) :
    Executes strategy limit d (.go q) s res
  /-- Some open rule can go on behind a stage, but not the query itself: looking for such a place
  again ends where it begins. -/
  | idle {d f : Nat} {s : State} (h : s.recovering = true)
    (hk : s.resyncSet.contains (s.kindAt 1) = true)
    (hq : (Phase.stages f).script s.coming = .step .sync (.go (.stages f))) :
    Executes strategy limit d (.go (.stages f)) s (.ok () s)

/-- A rule is called. -/
def Calls (strategy : Strategy) (limit : Nat) : Nat → Rule → Nat → State → Result → Prop
  | 0, r, f, s, res => res = closing (failTooDeep limit (s.enter (.ofRule r) f))
  | d + 1, r, f, s, res => ∃ res',
    Executes strategy limit d (opening r f s.coming) (s.enter (.ofRule r) f) res' ∧
      res = closing res'

variable {strategy : Strategy} {limit d : Nat} {p : Script} {r : Rule} {f : Nat} {s s' : State}
  {res : Result} {m : Move} {k : Kind} {w : List Kind}

/-! ## What scripts do to the state -/

theorem closing_state (res : Result) :
    ∃ x, Result.state (closing res) = State.leave x ∧ Evolves res.state x := by
  cases res with
  | ok _ s => exact ⟨s, rfl, .refl s⟩
  | error a s =>
    cases a with
    | halt => exact ⟨s, rfl, .refl s⟩
    | resync =>
      refine ⟨Result.state (recover s), ?_, recover_evolves s⟩
      rw [closing]
      cases recover s <;> rfl

theorem Evolves.closing {label : Label} {res : Result}
    (h : Evolves (s.enter label f) res.state) : Evolves s (Result.state (closing res)) := by
  obtain ⟨x, hx, hres⟩ := closing_state res
  rw [hx]
  exact .nest (h.trans hres)

/-- **What a script does to the state.** -/
theorem Executes.evolves (h : Executes strategy limit d p s res) (hs : s.stream.Proper) :
    Evolves s res.state := by
  induction h with
  | done => exact .refl _
  | @step _ m _ s s' _ hm h _ ih =>
    have hstep := Move.run_evolves hm strategy hs
    rw [h] at hstep
    exact hstep.trans (ih (hstep.advances.proper hs))
  | @stop _ m _ s s' _ hm h =>
    have hstep := Move.run_evolves hm strategy hs
    rw [h] at hstep
    exact hstep
  | call _ _ hc _ ihb ihp =>
    have hcall := (ihb hs).closing
    rw [hc] at hcall
    exact hcall.trans (ihp (hcall.advances.proper hs))
  | callStop _ _ hc ihb =>
    have hcall := (ihb hs).closing
    rw [hc] at hcall
    exact hcall
  | deep => exact (Evolves.edit (.tooDeep _ limit)).closing
  | go _ ih => exact ih hs
  | idle => exact .refl _

/-- A rule that is called is opened and closed again. -/
theorem Calls.exists_nest (h : Calls strategy limit d r f s res) (hs : s.stream.Proper) :
    ∃ x, res.state = State.leave x ∧ Evolves (s.enter (.ofRule r) f) x := by
  cases d with
  | zero =>
    cases h
    exact ⟨_, rfl, Evolves.edit (.tooDeep _ limit)⟩
  | succ d =>
    obtain ⟨res', hb, rfl⟩ := h
    obtain ⟨x, hx, he⟩ := closing_state res'
    exact ⟨x, hx, (hb.evolves hs).trans he⟩

theorem Calls.evolves (h : Calls strategy limit d r f s res) (hs : s.stream.Proper) :
    Evolves s res.state := by
  obtain ⟨x, hx, he⟩ := h.exists_nest hs
  rw [hx]
  exact .nest he

/-- There are never more tokens to come than before. -/
theorem Advances.length_le {x y : TokenStream} (h : Advances x y) (hx : x.Proper) :
    y.coming.length ≤ x.coming.length := by
  have hle := h.cursor_le
  have hcx := hx.cursor_add
  have hcy := (h.proper hx).cursor_add
  rw [TokenStream.size, h.tokens_eq, ← TokenStream.size] at hcy
  omega

/-! ## One step after the other -/

theorem Executes.bind_step {y : Run Unit} (hm : m.Plain) (hs : s.stream.Proper)
    (h : ∀ s', m.run strategy s = .ok () s' → s'.stream.Proper →
      Executes strategy limit d p s' (y s')) :
    Executes strategy limit d (.step m p) s ((m.run strategy >>= fun _ => y) s) := by
  have hstep := Move.run_evolves hm strategy hs
  show Executes strategy limit d (.step m p) s (EStateM.bind (m.run strategy) _ s)
  rw [EStateM.bind]
  cases hrun : m.run strategy s with
  | ok _ s' =>
    rw [hrun] at hstep
    exact .step hm hrun (h s' hrun (hstep.advances.proper hs))
  | error a s' => exact .stop hm hrun

/-- A step is the first thing that a script does. -/
theorem Executes.step_inv (h : Executes strategy limit d (.step m p) s res)
    (hrun : m.run strategy s = .ok () s') : Executes strategy limit d p s' res := by
  cases h with
  | step _ h' hp =>
    rw [hrun] at h'
    cases h'
    exact hp
  | stop _ h' =>
    rw [hrun] at h'
    cases h'

theorem Executes.single_step (hm : m.Plain) :
    Executes strategy limit d (.step m .done) s (m.run strategy s) := by
  cases hrun : m.run strategy s with
  | ok _ s' => exact .step hm hrun .done
  | error a s' => exact .stop hm hrun

theorem Executes.bind_call {x y : Run Unit} (hr : r ≠ .singleStatement)
    (hx : Calls strategy limit d r f s (x s)) (hs : s.stream.Proper)
    (h : ∀ s', Evolves s s' → s'.stream.Proper → Executes strategy limit d p s' (y s')) :
    Executes strategy limit d (.call r f p) s ((x >>= fun _ => y) s) := by
  have hcall := hx.evolves hs
  show Executes strategy limit d (.call r f p) s (EStateM.bind x _ s)
  rw [EStateM.bind]
  cases d with
  | zero =>
    rw [Calls] at hx
    rw [hx]
    exact .deep hr
  | succ d =>
    obtain ⟨res', hb, hc⟩ := hx
    cases hrun : x s with
    | ok _ s' =>
      rw [hrun] at hc hcall
      exact .call hr hb hc.symm (h s' hcall (hcall.advances.proper hs))
    | error a s' =>
      rw [hrun] at hc
      exact .callStop hr hb hc.symm

theorem Executes.single_call {x : Run Unit} (hr : r ≠ .singleStatement)
    (hx : Calls strategy limit d r f s (x s)) (hs : s.stream.Proper) :
    Executes strategy limit d (.call r f .done) s (x s) := by
  have h : Executes strategy limit d (.call r f .done) s ((x >>= fun _ => pure ()) s) :=
    Executes.bind_call hr hx hs fun _ _ _ => .done
  rwa [bind_pure_unit] at h

/-- Matching the token that comes next. -/
theorem take_run (hs : s.stream.Proper) (hk : next s.coming = k) :
    (Move.take (.ofList [k])).run strategy s = .ok () s.consume := by
  have hkind : s.kindAt 1 = k := by rw [State.kindAt, hs.kindAt_one, ← hk, State.coming]
  rw [Move.run, expectOneOf_eq, hkind, if_pos (by simp)]

theorem Executes.bind_consume {y : Run Unit} (hs : s.stream.Proper) (hk : next s.coming = k)
    (hne : k ≠ .endOfInput) (h : ∀ s', s'.stream.Proper → s'.coming = s.coming.tail →
      Executes strategy limit d p s' (y s')) :
    Executes strategy limit d (.token k p) s ((consume >>= fun _ => y) s) := by
  have hplain : (Move.take (.ofList [k])).Plain := by
    simpa [Move.Plain] using hne.symm
  obtain ⟨w, hw⟩ := exists_cons_of_next hk hne
  obtain ⟨hs', hw', -⟩ := hs.consume hw
  refine .step hplain (take_run hs hk) (h s.consume hs' ?_)
  rw [hw]
  exact hw'

theorem Executes.single_consume (hs : s.stream.Proper) (hk : next s.coming = k)
    (hne : k ≠ .endOfInput) :
    Executes strategy limit d (.token k .done) s (consume s) := by
  have h : Executes strategy limit d (.token k .done) s ((consume >>= fun _ => pure ()) s) :=
    Executes.bind_consume hs hk hne fun _ _ _ => .done
  rwa [bind_pure_unit] at h

end PipeQuery.Parser

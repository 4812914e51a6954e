import PipeQuery.Proofs.Parser.Careful
import PipeQuery.Proofs.Parser.Stages

/-!
# Where queries end

A query stands in a statement, or within the brackets behind `explain`, and in no other rule. So
while a query is open, and no rule within one of its stages, the places to go on are the ends of
stages; and whatever errors it meets, a query goes on to its bracket, or to the end of the input.

## Main results

* `syncStage_stop`: looking for the end of a stage finds one
* `stages_leaves`: the stages of a query end at its bracket, or with the input
* `Executes.leaves`: what a rule leaves
-/

namespace PipeQuery.Parser

open Token (Kind KindSet)
open Script

variable {strategy : Strategy} {limit d f : Nat} {r : Rule} {m : Move} {p : Script} {s s' : State}
  {res : Result}

/-! ## Places to go on -/

/-- A rule is not left by looking for a place to go on. -/
theorem recover_ne_resync : recover s ≠ .error .resync s' := by
  rw [recover]
  split
  · split <;> exact fun h => by cases h
  · exact fun h => by cases h

theorem closing_ne_resync : closing res ≠ .error .resync s' := by
  cases res with
  | ok => exact fun h => by cases h
  | error a u =>
    cases a with
    | halt => exact fun h => by cases h
    | resync =>
      rw [closing]
      cases hrec : recover u with
      | ok => exact fun h => by cases h
      | error a v =>
        intro h
        cases h
        exact recover_ne_resync hrec

/-- While only rules that queries stand in are open, the places to go on are ends of stages. -/
theorem resync_outer (hout : ∀ r ∈ s.frames.map Frame.rule, r.isOuter = true) {k : Kind}
    (hk : s.resyncSet.contains k = true) : stageEnd.contains k = true := by
  have hfollow : ∀ r : Rule, r.isOuter = true → ∀ k, r.follow.contains k = true →
      stageEnd.contains k = true := by
    intro r
    cases r <;> decide
  rw [contains_resyncSet, Bool.and_eq_true, List.any_eq_true] at hk
  obtain ⟨⟨r, hr, hk⟩, -⟩ := hk
  exact hfollow r (hout r hr) k hk

/-- Dropping tokens stops where it should, or at the end of the input. -/
theorem discardUntil_stop (hs : s.stream.Proper) (id : NodeId) (stop : KindSet) {n : Nat}
    (hn : s.coming.length ≤ n) :
    (s.discardUntil id stop n).kindAt 1 = .endOfInput ∨
      stop.contains ((s.discardUntil id stop n).kindAt 1) = true := by
  induction n generalizing s with
  | zero =>
    refine .inl ?_
    rw [State.discardUntil, kindAt_one hs, List.length_eq_zero_iff.mp (Nat.le_zero.mp hn), next_nil]
  | succ n ih =>
    rw [State.discardUntil]
    split
    · rename_i hk
      simpa using hk
    · rename_i hk
      simp only [Bool.or_eq_true, decide_eq_true_eq, not_or] at hk
      cases hw : s.coming with
      | nil =>
        rw [kindAt_one hs, hw] at hk
        exact absurd rfl hk.1
      | cons k w =>
        obtain ⟨hs', hw', -⟩ := hs.consume hw
        refine ih (s := s.discard id) hs' ?_
        rw [hw, List.length_cons] at hn
        show s.stream.consume.coming.length ≤ n
        rw [hw']
        exact Nat.le_of_succ_le_succ hn

/-- A place to go on is found where the open rules say, or the input ends. -/
theorem recover_stop (hs : s.stream.Proper) (h : recover s = .ok () s') :
    s'.kindAt 1 = .endOfInput ∨ s.resyncSet.contains (s'.kindAt 1) = true := by
  have hlen : s.coming.length ≤ s.stream.remaining := Nat.le_of_eq hs.remaining_eq.symm
  rw [recover_ok_eq h]
  exact discardUntil_stop (s := { s with recovering := true }) hs s.node s.resyncSet hlen

/-- A stage that is followed by neither a pipe nor an end is left at such a place. -/
theorem syncStage_stop (hs : s.stream.Proper)
    (hout : ∀ r ∈ s.frames.map Frame.rule, r.isOuter = true)
    (h : syncStage strategy s = .ok () s') : stageEnd.contains (next s'.coming) = true := by
  have he := Move.sync.run_evolves trivial strategy hs
  rw [Move.run, h] at he
  have hs' : s'.stream.Proper := he.advances.proper hs
  obtain ⟨t, ht, h⟩ := syncStage_ok_inv h
  obtain ⟨hstream, hframes, -⟩ := reportHere_ok (fail_resync ht)
  rw [← kindAt_one hs']
  rcases recover_stop (hstream ▸ hs) h with heof | hresync
  · rw [heof]
    decide
  · exact resync_outer (hframes ▸ hout) hresync

/-- A step leaves its rule, or ends the parse, or the script goes on. -/
theorem Executes.step_ok (h : Executes strategy limit d (.step m p) s res)
    (hm : ∀ t, m.run strategy s ≠ .error .resync t) (hc : closing res = .ok () s') :
    ∃ t, m.run strategy s = .ok () t ∧ Executes strategy limit d p t res := by
  cases h with
  | step _ hrun hp => exact ⟨_, hrun, hp⟩
  | @stop _ _ _ _ t a _ hrun =>
    cases a with
    | resync => exact absurd hrun (hm t)
    | halt => cases hc

/-- A rule that is called comes back, unless the parse ends. -/
theorem Executes.call_ok (h : Executes strategy limit d (.call r f p) s res) (hs : s.stream.Proper)
    (hc : closing res = .ok () s') : ∃ t, Executes strategy limit d p t res ∧ Evolves s t := by
  cases h with
  | @call _ _ _ _ _ t _ res' _ hb ht hp =>
    have he : Evolves s (Result.state (closing res')) := (hb.evolves hs).closing
    rw [ht] at he
    exact ⟨t, hp, he⟩
  | @callStop _ _ _ _ _ t a _ _ _ ht =>
    cases a with
    | resync => exact absurd ht closing_ne_resync
    | halt => cases hc
  | deep => cases hc

theorem syncStage_ne_resync : syncStage strategy s ≠ .error .resync s' := by
  rw [syncStage, recovering]
  split
  · exact recover_ne_resync
  · rename_i hres
    exact fun h => hres _ h

/-- Looking for the end of a stage, where no query ends, drops tokens. -/
theorem syncStage_length_lt (hs : s.stream.Proper)
    (hout : ∀ r ∈ s.frames.map Frame.rule, r.isOuter = true)
    (hfollow : ¬ Rule.query.follow.contains (s.kindAt 1) = true)
    (h : syncStage strategy s = .ok () s') : s'.coming.length < s.coming.length := by
  have hne : s.kindAt 1 ≠ .endOfInput := by
    intro heof
    rw [heof] at hfollow
    exact hfollow (by decide)
  have he := Move.sync.run_evolves trivial strategy hs
  rw [Move.run, h] at he
  refine (syncStage_ok hs hne h).resolve_right ?_
  rintro ⟨-, hstream, hk⟩
  -- No open rule can go on where the stage is not at an end.
  have hend := resync_outer (he.frames_eq ▸ hout) hk
  rw [kindAt_eq_of_stream hstream] at hend
  exact hfollow hend

/-- Behind a further stage fewer tokens are left. -/
theorem stage_length_lt (h : Executes strategy limit d (.go (.stages 0)) s res)
    (hs : s.stream.Proper) {w : List Kind} (hw : s.coming = .pipe :: w)
    (hc : closing res = .ok () s') :
    ∃ t, Executes strategy limit d (.go (.stages 0)) t res ∧ Evolves s t ∧
      t.coming.length < s.coming.length := by
  obtain ⟨he, hcoming⟩ := pipe_evolves hs hw
  have hproper := he.advances.proper hs
  obtain ⟨t, ht, hcall⟩ := (h.pipe_inv hs hw).call_ok hproper hc
  refine ⟨t, ht, he.trans hcall, ?_⟩
  have hlen : t.coming.length ≤ (s.wrap .compositeQuery).consume.coming.length :=
    hcall.advances.length_le hproper
  rw [hcoming] at hlen
  rw [hw]
  exact Nat.lt_succ_of_le hlen

/-- A round of the stages of a query: the query ends, or fewer tokens are left. -/
theorem stages_round (h : Executes strategy limit d (.go (.stages 0)) s res)
    (hs : s.stream.Proper) (hout : ∀ r ∈ s.frames.map Frame.rule, r.isOuter = true)
    (hc : closing res = .ok () s') :
    (next s'.coming = .endOfInput ∨ next s'.coming = .rightBracket) ∨
      ∃ t, Executes strategy limit d (.go (.stages 0)) t res ∧ Evolves s t ∧
        t.coming.length < s.coming.length := by
  by_cases hpipe : next s.coming = .pipe
  · obtain ⟨w, hw⟩ := exists_cons_of_next hpipe (by decide)
    exact .inr (stage_length_lt h hs hw hc)
  have hscript : (Phase.stages 0).script s.coming =
      if Rule.query.follow.contains (next s.coming) then .done
      else .step .sync (.go (.stages 0)) := by
    rw [Phase.script, decide_eq_false hpipe, Bool.false_and, if_neg Bool.false_ne_true]
  by_cases hfollow : Rule.query.follow.contains (next s.coming) = true
  · rw [if_pos hfollow] at hscript
    cases h with
    | go h =>
      rw [hscript] at h
      cases h
      cases hc
      have hend : ∀ k : Kind, k ≠ .pipe → Rule.query.follow.contains k = true →
          k = .endOfInput ∨ k = .rightBracket := by decide
      rw [coming_leave]
      exact .inl (hend _ hpipe hfollow)
    | idle _ _ hq =>
      rw [hscript] at hq
      cases hq
  · rw [if_neg hfollow] at hscript
    rw [← kindAt_one hs] at hfollow
    cases h with
    | go h =>
      rw [hscript] at h
      obtain ⟨t, hrun, hp⟩ := h.step_ok (fun _ => syncStage_ne_resync) hc
      have he := Move.sync.run_evolves trivial strategy hs
      rw [hrun] at he
      exact .inr ⟨t, hp, he, syncStage_length_lt hs hout hfollow hrun⟩
    | idle _ hk _ => exact absurd (resync_outer hout hk) hfollow

/-- **The stages of a query end** at its bracket, or with the input. -/
theorem stages_leaves (h : Executes strategy limit d (.go (.stages 0)) s res)
    (hs : s.stream.Proper) (hout : ∀ r ∈ s.frames.map Frame.rule, r.isOuter = true)
    (hc : closing res = .ok () s') :
    next s'.coming = .endOfInput ∨ next s'.coming = .rightBracket := by
  induction hn : s.coming.length using Nat.strongRecOn generalizing s with
  | ind n ih =>
    subst hn
    rcases stages_round h hs hout hc with hend | ⟨t, ht, he, hlt⟩
    · exact hend
    · exact ih _ hlt ht (he.advances.proper hs) (he.frames_eq ▸ hout) rfl

/-- **A rule that is called leaves** what it says: a query ends at its bracket or with the input,
and a name is one token. -/
theorem Executes.leaves
    (h : Executes strategy limit d (opening r f s.coming) (s.enter (.ofRule r) f) res)
    (hc : closing res = .ok () s') (hs : s.stream.Proper) (hr : r.Called f s.coming)
    (hout : r.isOuter = true → ∀ r' ∈ s.frames.map Frame.rule, r'.isOuter = true) :
    r.Leaves s.coming s'.coming := by
  constructor
  case query =>
    rintro rfl
    obtain rfl := hr.floor_eq rfl
    obtain ⟨t, hrun, hcall⟩ := h.step_ok (fun _ h => by cases h) hc
    cases hrun
    obtain ⟨t, hstages, he⟩ := hcall.call_ok hs hc
    refine stages_leaves hstages (he.advances.proper hs) ?_ hc
    rw [he.frames_eq]
    intro r hr
    rcases List.mem_cons.mp hr with rfl | hr
    · rfl
    · exact hout rfl r hr
  case identifier =>
    rintro rfl hname
    have hk :
        Rule.identifier.first.contains ((s.enter (.ofRule .identifier) f).kindAt 1) = true := by
      have hfirst : ∀ k, isName k = true → Rule.identifier.first.contains k = true := by decide
      rw [← kindAt_one hs] at hname
      exact hfirst _ hname
    have hrun : (Move.take Rule.identifier.first).run strategy (s.enter (.ofRule .identifier) f) =
        .ok () (s.enter (.ofRule .identifier) f).consume := by
      rw [Move.run, expectOneOf_eq, if_pos hk]
    cases Executes.step_inv h hrun
    cases hc
    cases hw : s.coming with
    | nil =>
      rw [hw] at hname
      cases hname
    | cons k w => exact (hs.consume hw).2.1

end PipeQuery.Parser

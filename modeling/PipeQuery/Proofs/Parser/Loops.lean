import PipeQuery.Proofs.Parser.Execution

/-!
# The loops of the parser

The loops of the parser do what their phases say, as long as they may go round for every token to
come. Each round takes a token, and calls a rule that never gives one back.

## Main definitions

* `Carries`: the rules that a loop calls carry out their scripts

## Main results

* `more_executes`, `list_executes`: lists with separators
* `operators_executes`: precedence climbing
* `stages_executes`: the stages of a query
-/

namespace PipeQuery.Parser

open Token (Kind KindSet)

variable {strategy : Strategy} {limit d : Nat} {p : Script} {r : Rule} {f : Nat} {s s' : State}
  {k : Kind}

/-! ## Loops -/

theorem kindAt_one (hs : s.stream.Proper) : s.kindAt 1 = next s.coming := hs.kindAt_one

theorem kindAt_two (hs : s.stream.Proper) : s.kindAt 2 = next s.coming.tail := by
  rw [State.kindAt, hs.kindAt_eq 1, List.drop_one, State.coming]

/-- No token to come is the end of the input. -/
theorem ne_of_coming {w : List Kind} (hs : s.stream.Proper) (hw : s.coming = k :: w) :
    k ≠ .endOfInput := by
  refine hs.ne_of_mem ?_
  rw [← State.coming, hw]
  exact List.mem_cons_self

theorem tail_length_lt (hk : next s.coming = k) (hne : k ≠ .endOfInput) :
    s.coming.tail.length < s.coming.length := by
  obtain ⟨w, hw⟩ := exists_cons_of_next hk hne
  rw [hw]
  exact Nat.lt_succ_self w.length

/-- The rules called by a body carry out their scripts. -/
def Carries (strategy : Strategy) (limit d : Nat) (sub : Rule → Nat → Run Unit) : Prop :=
  ∀ r f s, r ≠ .singleStatement → s.stream.Proper → Calls strategy limit d r f s (sub r f s)

variable {sub : Rule → Nat → Run Unit}

/-- A round of a loop: a token, a call, and what is left to do over fewer tokens. -/
theorem round_executes (hsub : Carries strategy limit d sub) {rounds : Run Unit}
    (hr : r ≠ .singleStatement) (hs : s.stream.Proper) (hk : next s.coming = k)
    (hne : k ≠ .endOfInput)
    (h : ∀ t : State, t.stream.Proper → t.coming.length < s.coming.length →
      Executes strategy limit d p t (rounds t)) :
    Executes strategy limit d (.token k (.call r f p)) s
      ((consume >>= fun _ => sub r f >>= fun _ => rounds) s) := by
  refine .bind_consume hs hk hne fun t ht hw => ?_
  refine .bind_call hr (hsub _ _ _ hr ht) ht fun u hu hu' => h u hu' ?_
  have hle := hu.advances.length_le ht
  have hlt := tail_length_lt hk hne
  rw [← hw] at hlt
  exact Nat.lt_of_le_of_lt hle hlt

/-- A round of a loop that wraps the node before it goes on. -/
theorem wrapped_round_executes (hsub : Carries strategy limit d sub) {label : Label}
    {rounds : Run Unit} (hr : r ≠ .singleStatement) (hs : s.stream.Proper)
    (hk : next s.coming = k) (hne : k ≠ .endOfInput)
    (h : ∀ t : State, t.stream.Proper → t.coming.length < s.coming.length →
      Executes strategy limit d p t (rounds t)) :
    Executes strategy limit d (.step (.wrap label) (.token k (.call r f p))) s
      ((wrap label >>= fun _ => consume >>= fun _ => sub r f >>= fun _ => rounds) s) := by
  have hw : (s.wrap label).coming = s.coming := coming_wrap s label
  have hsw : (s.wrap label).stream.Proper := by rwa [stream_wrap]
  rw [← hw] at hk h
  exact .step trivial rfl (round_executes hsub hr hsw hk hne h)

theorem more_executes (hsub : Carries strategy limit d sub) (series : Series) {ending : Run Unit}
    (hend : ∀ s, s.stream.Proper → Executes strategy limit d series.ending s (ending s))
    (n : Nat) (hs : s.stream.Proper) (hn : s.coming.length ≤ n) :
    Executes strategy limit d (.go (.more series)) s
      ((more series.separator (sub series.item 0) n >>= fun _ => ending) s) := by
  have hne : series.separator ≠ .endOfInput := by cases series <;> decide
  refine .go ?_
  induction n generalizing s with
  | zero =>
    have hnil : s.coming = [] := List.length_eq_zero_iff.mp (Nat.le_zero.mp hn)
    rw [hnil, Phase.script, next_nil, if_neg hne.symm]
    exact hend s hs
  | succ n ih =>
    have hmore : (more series.separator (sub series.item 0) (n + 1) >>= fun _ => ending) s =
        ((if s.kindAt 1 = series.separator then (do
          consume
          sub series.item 0
          more series.separator (sub series.item 0) n)
        else pure ()) >>= fun _ => ending) s := rfl
    rw [hmore, kindAt_one hs, Phase.script]
    by_cases hk : next s.coming = series.separator
    · rw [if_pos hk, if_pos hk]
      simp only [bind_assoc]
      exact round_executes hsub series.item_ne hs hk hne fun t ht hlt =>
        .go (ih ht (Nat.le_of_lt_succ (Nat.lt_of_lt_of_le hlt hn)))
    · rw [if_neg hk, if_neg hk]
      exact hend s hs

theorem list_executes (hsub : Carries strategy limit d sub) (series : Series) {ending : Run Unit}
    (hend : ∀ s, s.stream.Proper → Executes strategy limit d series.ending s (ending s))
    (hs : s.stream.Proper) :
    Executes strategy limit d (.call series.item 0 (.go (.more series))) s
      ((list series.separator (sub series.item 0) >>= fun _ => ending) s) := by
  simp only [list, bind_assoc]
  refine .bind_call series.item_ne (hsub _ _ _ series.item_ne hs) hs fun t _ ht => ?_
  show Executes strategy limit d _ t
    ((more series.separator (sub series.item 0) t.stream.remaining >>= fun _ => ending) t)
  exact more_executes hsub series hend _ ht (Nat.le_of_eq ht.remaining_eq.symm)

theorem single_list_executes (hsub : Carries strategy limit d sub) (series : Series)
    (hend : series.ending = .done) (hs : s.stream.Proper) :
    Executes strategy limit d (.call series.item 0 (.go (.more series))) s
      (list series.separator (sub series.item 0) s) := by
  have h : Executes strategy limit d (.call series.item 0 (.go (.more series))) s
      ((list series.separator (sub series.item 0) >>= fun _ => pure ()) s) :=
    list_executes hsub series (fun s _ => by rw [hend]; exact .done) hs
  rwa [bind_pure_unit] at h

/-- A round of precedence climbing at an operator of this precedence, and the rounds behind it. -/
def operatorRound (sub : Rule → Nat → Run Unit) (c : Climb) (f : Nat) (rounds : Run Unit) :
    Option Nat → Run Unit
  | none => pure ()
  | some p =>
    if p < f then pure ()
    else do
      wrap c.wrapper
      consume
      sub c.rule (p + 1)
      rounds

theorem operators_succ (c : Climb) (n : Nat) (s : State) :
    operators sub c.precedence c.wrapper c.rule f (n + 1) s =
      operatorRound sub c f (operators sub c.precedence c.wrapper c.rule f n)
        (c.precedence (s.kindAt 1)) s := rfl

theorem operators_executes (hsub : Carries strategy limit d sub) (c : Climb) (n : Nat)
    (hs : s.stream.Proper) (hn : s.coming.length ≤ n) :
    Executes strategy limit d (.go (.operators c f)) s
      (operators sub c.precedence c.wrapper c.rule f n s) := by
  have hrule : c.rule ≠ .singleStatement := by cases c <;> decide
  have heof : c.precedence .endOfInput = none := by cases c <;> rfl
  refine .go ?_
  induction n generalizing s with
  | zero =>
    have hnil : s.coming = [] := List.length_eq_zero_iff.mp (Nat.le_zero.mp hn)
    simp only [hnil, Phase.script, next_nil, heof]
    exact .done
  | succ n ih =>
    rw [operators_succ, kindAt_one hs, Phase.script]
    cases hp : c.precedence (next s.coming) with
    | none => exact .done
    | some p =>
      by_cases hf : p < f
      · rw [operatorRound, if_pos hf]
        simp only [hf, if_true]
        exact .done
      · rw [operatorRound, if_neg hf]
        simp only [hf, if_false]
        have hne : next s.coming ≠ .endOfInput := by
          intro he
          rw [he, heof] at hp
          cases hp
        exact wrapped_round_executes hsub hrule hs rfl hne fun t ht hlt =>
          .go (ih ht (Nat.le_of_lt_succ (Nat.lt_of_lt_of_le hlt hn)))

/-! ## Stages -/

/-- A rule that is left while recovering keeps no error. -/
theorem fail_of_recovering (h : s.recovering = true) (cause : SyntaxError.Cause)
    (expected : KindSet) : fail strategy cause expected s = .error .resync s := by
  have hreport : reportHere strategy cause expected s = .ok () s := by
    rw [reportHere, report, if_pos h]
  exact bind_ok hreport

theorem fail_resync {cause : SyntaxError.Cause} {expected : KindSet}
    (h : fail strategy cause expected s = .error .resync s') :
    reportHere strategy cause expected s = .ok () s' := by
  change EStateM.bind (reportHere strategy cause expected) _ s = _ at h
  rw [EStateM.bind] at h
  cases hreport : reportHere strategy cause expected s with
  | ok _ t => rw [hreport] at h; cases h; rfl
  | error a t =>
    rw [hreport] at h
    cases h
    rw [reportHere, report] at hreport
    split at hreport
    · cases hreport
    · cases strategy <;> cases hreport

theorem fail_ne_ok {cause : SyntaxError.Cause} {expected : KindSet} :
    fail strategy cause expected s ≠ .ok () s' := by
  intro h
  change EStateM.bind (reportHere strategy cause expected) _ s = _ at h
  rw [EStateM.bind] at h
  cases hreport : reportHere strategy cause expected s with
  | ok | error => rw [hreport] at h; cases h

/-- Nothing is dropped where some open rule can go on. -/
theorem recover_idle (h : s.recovering = true) (hk : s.resyncSet.contains (s.kindAt 1) = true) :
    recover s = .ok () s := by
  have hself : { s with recovering := true } = s := by
    cases s
    cases h
    rfl
  have hdrop (n : Nat) : s.discardUntil s.node s.resyncSet n = s := by
    cases n with
    | zero => rfl
    | succ n => rw [State.discardUntil, hk, Bool.or_true, if_pos rfl]
  rw [recover, hself, hdrop, if_neg]
  simp

/-- Looking for a place to go on drops a token, unless some open rule can go on at once. -/
theorem recover_ok (hs : s.stream.Proper) (hne : s.kindAt 1 ≠ .endOfInput)
    (h : recover s = .ok () s') :
    s'.coming.length < s.coming.length ∨
      s' = { s with recovering := true } ∧ s.resyncSet.contains (s.kindAt 1) = true := by
  obtain rfl := recover_ok_eq h
  by_cases hk : s.resyncSet.contains (s.kindAt 1) = true
  · refine .inr ⟨?_, hk⟩
    cases s.stream.remaining with
    | zero => rfl
    | succ n =>
      rw [State.discardUntil, if_pos]
      rw [Bool.or_eq_true]
      exact .inr hk
  · refine .inl ?_
    have hlen : s.stream.remaining = s.coming.length := hs.remaining_eq
    cases hw : s.coming with
    | nil =>
      rw [kindAt_one hs, hw] at hne
      exact absurd rfl hne
    | cons k w =>
      obtain ⟨hs', hw', -⟩ := hs.consume hw
      rw [hlen, hw, List.length_cons, State.discardUntil, if_neg]
      · have hdrop := discardUntil_evolves
          (s := State.discard { s with recovering := true } s.node) s.resyncSet w.length rfl
        have hle := hdrop.advances.length_le hs'
        exact Nat.lt_succ_of_le (Nat.le_trans hle (Nat.le_of_eq (congrArg List.length hw')))
      · rw [Bool.or_eq_true, not_or, decide_eq_true_eq]
        exact ⟨hne, hk⟩

/-- The end of a stage is found once the error is told of. -/
theorem syncStage_ok_inv (h : syncStage strategy s = .ok () s') :
    ∃ t, fail strategy .noViable Rule.query.follow s = .error .resync t ∧
      recover t = .ok () s' := by
  rw [syncStage, recovering] at h
  split at h
  · exact ⟨_, ‹_›, h⟩
  · exact absurd h fail_ne_ok

theorem syncStage_idle (h : s.recovering = true)
    (hk : s.resyncSet.contains (s.kindAt 1) = true) : syncStage strategy s = .ok () s := by
  rw [syncStage, recovering, fail_of_recovering h]
  exact recover_idle h hk

/-- Behind a search for an end of the stage some token was dropped, or nothing will come of
searching again. -/
theorem syncStage_ok (hs : s.stream.Proper) (hne : s.kindAt 1 ≠ .endOfInput)
    (h : syncStage strategy s = .ok () s') :
    s'.coming.length < s.coming.length ∨
      s'.recovering = true ∧ s'.stream = s.stream ∧
        s'.resyncSet.contains (s'.kindAt 1) = true := by
  obtain ⟨t, ht, h⟩ := syncStage_ok_inv h
  obtain ⟨hstream, -, -⟩ := reportHere_ok (fail_resync ht)
  have hkind : t.kindAt 1 = s.kindAt 1 := kindAt_eq_of_stream hstream 1
  rcases recover_ok (hstream ▸ hs) (hkind ▸ hne) h with hlt | ⟨rfl, hk⟩
  · rw [coming_eq_of_stream hstream] at hlt
    exact .inl hlt
  · exact .inr ⟨rfl, hstream, hk⟩

theorem stages_succ (n : Nat) :
    stages strategy sub f (n + 1) s =
      (if s.kindAt 1 = .pipe && f ≤ Precedence.pipe then do
        wrap .compositeQuery
        consume
        sub .processingCommand 0
        stages strategy sub f n
      else if Rule.query.follow.contains (s.kindAt 1) then pure ()
      else do
        syncStage strategy
        stages strategy sub f n : Run Unit) s := rfl

theorem stages_idle (h : s.recovering = true) (hk : s.resyncSet.contains (s.kindAt 1) = true)
    (hpipe : (s.kindAt 1 = .pipe && f ≤ Precedence.pipe : Bool) = false)
    (hfollow : Rule.query.follow.contains (s.kindAt 1) = false) (n : Nat) :
    stages strategy sub f n s = .ok () s := by
  induction n with
  | zero => rfl
  | succ n ih =>
    rw [stages_succ, hpipe, hfollow]
    exact (bind_ok (syncStage_idle h hk)).trans ih

theorem stages_executes (hsub : Carries strategy limit d sub) (n : Nat) (hs : s.stream.Proper)
    (hn : s.coming.length ≤ n) :
    Executes strategy limit d (.go (.stages f)) s (stages strategy sub f n s) := by
  have heof : Rule.query.follow.contains .endOfInput = true := by decide
  refine .go ?_
  induction n generalizing s with
  | zero =>
    have hnil : s.coming = [] := List.length_eq_zero_iff.mp (Nat.le_zero.mp hn)
    simp only [hnil, Phase.script, next_nil, heof]
    exact .done
  | succ n ih =>
    rw [stages_succ, kindAt_one hs, Phase.script]
    cases hpipe : (next s.coming = .pipe && f ≤ Precedence.pipe : Bool) with
    | true =>
      have hk : next s.coming = .pipe := by simp_all
      exact wrapped_round_executes hsub (by decide) hs hk (by decide) fun t ht hlt =>
        .go (ih ht (Nat.le_of_lt_succ (Nat.lt_of_lt_of_le hlt hn)))
    | false =>
      cases hfollow : Rule.query.follow.contains (next s.coming) with
      | true => exact .done
      | false =>
        have hne : s.kindAt 1 ≠ .endOfInput := by
          rw [kindAt_one hs]
          intro he
          rw [he, heof] at hfollow
          cases hfollow
        show Executes strategy limit d _ s
          (((Move.sync).run strategy >>= fun _ => stages strategy sub f n) s)
        refine .bind_step trivial hs fun t ht hts => ?_
        rcases syncStage_ok hs hne ht with hlt | ⟨hrec, hstream, hk⟩
        · exact .go (ih hts (Nat.le_of_lt_succ (Nat.lt_of_lt_of_le hlt hn)))
        · -- Searching again changes nothing any more.
          have hkind : t.kindAt 1 = next s.coming := by
            rw [kindAt_eq_of_stream hstream, kindAt_one hs]
          rw [stages_idle hrec hk (hkind ▸ hpipe) (hkind ▸ hfollow)]
          refine .idle hrec hk ?_
          rw [Phase.script, coming_eq_of_stream hstream, hpipe, hfollow]
          rfl

end PipeQuery.Parser

import PipeQuery.Proofs.Parser.Bodies
import PipeQuery.Proofs.Parser.Course
import PipeQuery.Proofs.Parser.Cursor
import PipeQuery.Proofs.Parser.Forms
import PipeQuery.Proofs.Parser.Outcomes

/-!
# Fields that are assignments

An assignment is told from an expression by the `=` behind its name, and a name can have any
number of parts. So the name is passed twice: the prediction scans for its end, and the rules of
names match it later, by another loop that matches a dot before it looks at what stands behind it.
Where the prediction has found an `=`, both loops stop at the same place.

## Main definitions

* `dotted`, `Assigned`: the further parts of a name, and a name with `=` behind it
* `Scans`: the scan for the end of a name, without a bound
* `Matched`: tokens were matched, and nothing else happened

## Main results

* `fieldForm?_eq_none`, `fieldForm?_eq_assignment`: what the tokens to come announce
* `scans_iff`: the scan stops on every stream, where the name ends
* `parse_name`, `parse_name_tooDeep`: matching a name that comes next
* `field_predicted`: the prediction of a field
-/

namespace PipeQuery.Parser

open Token (Kind KindSet)

variable {k : Kind} {ks v w rest : List Kind} {t : TokenStream} {d f m : Nat} {x y z : State}

/-! ## Names with `=` behind them -/

/-- The further parts of a name, each behind a dot. -/
def dotted (ks : List Kind) : List Kind := ks.flatMap fun k => [.dot, k]

theorem dotted_cons (k : Kind) (ks : List Kind) : dotted (k :: ks) = .dot :: k :: dotted ks := rfl

theorem length_le_dotted (ks : List Kind) : ks.length ≤ (dotted ks).length := by
  induction ks with
  | nil => exact Nat.le_refl 0
  | cons k ks ih =>
    rw [dotted_cons, List.length_cons, List.length_cons, List.length_cons]
    omega

/-- A name of any number of parts and `=` come next. -/
def Assigned (w : List Kind) : Prop :=
  ∃ k ks, (∀ k' ∈ k :: ks, isName k' = true) ∧ k :: dotted ks ++ [.assign] <+: w

/-- The parts of a name are passed up to its end. -/
theorem nameTail_dotted (hks : ∀ k ∈ ks, isName k = true) (hrest : next rest ≠ .dot) :
    nameTail (dotted ks ++ rest) = rest := by
  induction ks with
  | nil => exact nameTail_of_next_ne hrest
  | cons k ks ih =>
    obtain ⟨hk, hks⟩ := List.forall_mem_cons.mp hks
    rw [dotted_cons, List.cons_append, List.cons_append, nameTail, if_pos hk, ih hks]

/-- Whatever is passed is the parts of a name. -/
theorem exists_dotted (w : List Kind) :
    ∃ ks, (∀ k ∈ ks, isName k = true) ∧ w = dotted ks ++ nameTail w := by
  fun_induction nameTail w with
  | case1 k w hk ih =>
    obtain ⟨ks, hks, hw⟩ := ih
    refine ⟨k :: ks, List.forall_mem_cons.mpr ⟨hk, hks⟩, ?_⟩
    rw [dotted_cons, List.cons_append, List.cons_append, ← hw]
  | case2 | case3 => exact ⟨[], List.forall_mem_nil _, rfl⟩

theorem derives_identifier (hk : isName k = true) : Derives [.rule .identifier] [k] := by
  have hmem : k ∈ [.name, .quotedName] := by
    rcases isName_eq hk with rfl | rfl <;> decide
  exact Derives.of_production (.identifier hmem) (.singleton k)

/-- The parts of a name derive from the rule of names. -/
theorem derives_dotted (hks : ∀ k' ∈ k :: ks, isName k' = true) :
    Derives (separated (.rule .identifier) .dot ks.length) (k :: dotted ks) := by
  induction ks generalizing k with
  | nil => exact derives_identifier (hks k List.mem_cons_self)
  | cons k' ks ih =>
    obtain ⟨hk, hks⟩ := List.forall_mem_cons.mp hks
    exact (derives_identifier hk).cons_rule (.token (ih hks))

theorem derives_name (hks : ∀ k' ∈ k :: ks, isName k' = true) :
    Derives [.rule .qualifiedName] (k :: dotted ks) :=
  Derives.of_production (.qualifiedName ks.length) (derives_dotted hks)

/-! ## What the tokens to come announce -/

theorem fieldForm?_eq_none : fieldForm? w = none ↔ next w ∉ Rule.field.first := by
  rw [fieldForm?, KindSet.mem_def]
  cases hfirst : Rule.field.first.contains (next w) with
  | false => simp
  | true =>
    simp only [Bool.not_true, Bool.false_eq_true, if_false, not_true, iff_false]
    split <;> exact Option.some_ne_none _

theorem first_of_isName (hk : isName k = true) : Rule.field.first.contains k = true := by
  rcases isName_eq hk with rfl | rfl <;> decide

/-- **An assignment is announced by a name with `=` behind it**, and by nothing else. -/
theorem fieldForm?_eq_assignment : fieldForm? w = some .assignment ↔ Assigned w := by
  constructor
  · intro h
    have hboth : isName (next w) = true ∧ next (nameTail w.tail) = .assign := by
      rw [fieldForm?] at h
      split at h
      · cases h
      · split at h
        · rename_i hboth
          rwa [Bool.and_eq_true, decide_eq_true_eq] at hboth
        · cases h
    obtain ⟨k, v, rfl, hk⟩ := exists_cons_of_isName hboth.1
    obtain ⟨ks, hks, hv⟩ := exists_dotted v
    obtain ⟨rest, hrest⟩ : ∃ rest, nameTail v = .assign :: rest :=
      exists_cons_of_next hboth.2 (by decide)
    refine ⟨k, ks, List.forall_mem_cons.mpr ⟨hk, hks⟩, rest, ?_⟩
    rw [hrest] at hv
    rw [hv, List.cons_append, List.cons_append, List.append_assoc]
    rfl
  · rintro ⟨k, ks, hks, rest, rfl⟩
    obtain ⟨hk, hks⟩ := List.forall_mem_cons.mp hks
    have hassign : next (nameTail (dotted ks ++ .assign :: rest)) = .assign := by
      rw [nameTail_dotted hks (by simp), next_cons]
    simp [fieldForm?, first_of_isName hk, hk, hassign]

/-- An assignment announces itself as one, so no field announced as an expression is one. -/
theorem not_prefix_of_expression (h : fieldForm? w = some .expression)
    (hv : Derives [.rule .qualifiedName, .token .assign, .rule .booleanExpression] v) :
    ¬ v <+: w := by
  rintro ⟨rest, rfl⟩
  rw [fieldForm?_assignment hv rest] at h
  cases h

/-! ## The scan for the end of a name -/

/-- A dot and a part of a name stand at the places `k` and `k + 1`. -/
def partAt (t : TokenStream) (k : Nat) : Bool := t.kindAt k = .dot && isName (t.kindAt (k + 1))

/-- The scan for the end of a name comes from a place to its end. It goes on for as long as there
are further parts, however many. -/
inductive Scans (t : TokenStream) : Nat → Nat → Prop where
  | stop {k : Nat} (h : partAt t k = false) : Scans t k k
  | next {k e : Nat} (h : partAt t k = true) (he : Scans t (k + 2) e) : Scans t k e

theorem Scans.unique {k e e' : Nat} (h : Scans t k e) (h' : Scans t k e') : e = e' := by
  induction h with
  | stop h =>
    cases h' with
    | stop => rfl
    | next hnext => rw [h] at hnext; cases hnext
  | next h _ ih =>
    cases h' with
    | stop hstop => rw [h] at hstop; cases hstop
    | next _ he' => exact ih he'

/-- The scan stops before the tokens to come end. -/
theorem scans_nameEnd (ht : t.Proper) (n k : Nat) (hn : (t.coming.drop k).length ≤ n) :
    Scans t (k + 1) (nameEnd t n (k + 1)) := by
  induction n generalizing k with
  | zero =>
    have hnil := List.length_eq_zero_iff.mp (Nat.le_zero.mp hn)
    -- Behind the tokens to come stands the end of the input, and no dot.
    refine .stop ?_
    rw [partAt, ht.kindAt_eq, hnil]
    rfl
  | succ n ih =>
    rw [nameEnd]
    split
    · rename_i hpart
      exact .next hpart (ih (k + 2) (by rw [List.length_drop] at hn ⊢; omega))
    · rename_i hpart
      exact .stop (Bool.eq_false_iff.mpr hpart)

/-- **The scan stops on every stream**, at the end that a bounded scan finds. -/
theorem scans_iff (ht : t.Proper) (e : Nat) : Scans t 2 e ↔ e = nameEnd t t.remaining 2 := by
  have hscans : Scans t 2 (nameEnd t t.remaining 2) :=
    scans_nameEnd ht _ 1 (by rw [ht.remaining_eq, List.length_drop]; omega)
  constructor
  · exact fun h => h.unique hscans
  · rintro rfl
    exact hscans

/-! ## Matching a name -/

/-- Tokens of these kinds were matched, and nothing else happened: no token was dropped, no error
was met, and the same rules are open. -/
structure Matched (w : List Kind) (x y : State) : Prop where
  proper : y.stream.Proper
  tokens_eq : y.stream.tokens = x.stream.tokens
  cursor_eq : y.cursor = x.cursor + w.length
  coming_eq : x.coming = w ++ y.coming
  frames_eq : y.frames = x.frames
  recovering_eq : y.recovering = false
  raised_eq : y.raised = x.raised
  lastError_eq : y.lastError = x.lastError
  failure_eq : y.failure = x.failure
  errors : x.arena.SameErrors y.arena
  discards : x.arena.SameDiscards y.arena

theorem Matched.trans (h : Matched v x y) (h' : Matched w y z) : Matched (v ++ w) x z where
  proper := h'.proper
  tokens_eq := h'.tokens_eq.trans h.tokens_eq
  cursor_eq := by rw [h'.cursor_eq, h.cursor_eq, List.length_append, Nat.add_assoc]
  coming_eq := by rw [h.coming_eq, h'.coming_eq, List.append_assoc]
  frames_eq := h'.frames_eq.trans h.frames_eq
  recovering_eq := h'.recovering_eq
  raised_eq := h'.raised_eq.trans h.raised_eq
  lastError_eq := h'.lastError_eq.trans h.lastError_eq
  failure_eq := h'.failure_eq.trans h.failure_eq
  errors := h.errors.trans h'.errors
  discards := h.discards.trans h'.discards

theorem matched_consume (hx : x.stream.Proper) (hw : x.coming = k :: w) :
    Matched [k] x x.consume where
  proper := (hx.consume hw).1
  tokens_eq := x.stream.tokens_consume
  cursor_eq := (hx.consume hw).2.2
  coming_eq := hw.trans (congrArg (k :: ·) (hx.consume hw).2.1.symm)
  frames_eq := rfl
  recovering_eq := rfl
  raised_eq := rfl
  lastError_eq := rfl
  failure_eq := rfl
  errors := Arena.sameErrors_push ..
  discards := Arena.sameDiscards_push _ _ rfl

/-- What a rule matched is matched once the rule is closed. -/
theorem Matched.leave {label : Label} (h : Matched w (x.enter label f) y) :
    Matched w x y.leave where
  proper := by
    rw [stream_leave]
    exact h.proper
  tokens_eq := by
    rw [stream_leave]
    exact h.tokens_eq
  cursor_eq := by
    rw [cursor_leave]
    exact h.cursor_eq
  coming_eq := by
    show x.coming = w ++ y.leave.stream.coming
    rw [stream_leave]
    exact h.coming_eq
  frames_eq := by rw [frames_leave, h.frames_eq, State.enter, List.tail_cons]
  recovering_eq := (recovering_leave y).trans h.recovering_eq
  raised_eq := (quiet_leave y).raised_eq.trans h.raised_eq
  lastError_eq := (lastError_leave y).trans h.lastError_eq
  failure_eq := (failure_leave y).trans h.failure_eq
  errors := ((quiet_enter x label f).errors.trans h.errors).trans (quiet_leave y).errors
  discards := ((quiet_enter x label f).discards.trans h.discards).trans (quiet_leave y).discards

/-- A token that comes next is matched. -/
theorem expect_matched (strategy : Strategy) (hx : x.stream.Proper) (hw : x.coming = k :: w) :
    ∃ y, expect strategy k x = .ok () y ∧ Matched [k] x y :=
  ⟨x.consume, take_run hx (by rw [hw, next_cons]), matched_consume hx hw⟩

/-- A part of a name that comes next is matched, by a rule of its own. -/
theorem parse_identifier (options : Options) (d f : Nat) (hx : x.stream.Proper)
    (hw : x.coming = k :: w) (hk : isName k = true) :
    ∃ y, parseRule options (d + 1) .identifier f x = .ok () y ∧ Matched [k] x y := by
  have hfirst : Rule.identifier.first.contains ((x.enter (.ofRule .identifier) f).kindAt 1) =
      true := by
    show isName (x.stream.kindAt 1) = true
    rwa [hx.kindAt_one, ← State.coming, hw, next_cons]
  have hmatched : Matched [k] (x.enter (.ofRule .identifier) f)
      (x.enter (.ofRule .identifier) f).consume := matched_consume hx hw
  refine ⟨_, ?_, hmatched.leave⟩
  rw [parseRule, within_eq, body, expectOneOf_eq, if_pos hfirst]
  rfl

/-- The further parts of a name are matched, where no dot stands behind the last. -/
theorem more_matched {item : Run Unit}
    (hitem : ∀ {x k w}, x.stream.Proper → x.coming = k :: w → isName k = true →
      ∃ y, item x = .ok () y ∧ Matched [k] x y)
    (hks : ∀ k ∈ ks, isName k = true) (hrest : next rest ≠ .dot) (hm : ks.length ≤ m)
    (hx : x.stream.Proper) (hr : x.recovering = false) (hw : x.coming = dotted ks ++ rest) :
    ∃ y, more .dot item m x = .ok () y ∧ Matched (dotted ks) x y := by
  induction ks generalizing x m with
  | nil =>
    refine ⟨x, ?_, hx, rfl, rfl, rfl, rfl, hr, rfl, rfl, rfl, .refl _, .refl _⟩
    cases m with
    | zero => rfl
    | succ m =>
      have hnext : x.kindAt 1 ≠ .dot := by
        rw [kindAt_one hx, hw]
        exact hrest
      show (if x.kindAt 1 = .dot then _ else pure () : Run Unit) x = _
      rw [if_neg hnext]
      rfl
  | cons k ks ih =>
    obtain ⟨hk, hks⟩ := List.forall_mem_cons.mp hks
    cases m with
    | zero => cases hm
    | succ m =>
      -- A dot is matched whatever stands behind it; here a part of the name does.
      obtain ⟨y, hy, hdot⟩ : ∃ y, consume x = .ok () y ∧ Matched [.dot] x y :=
        ⟨x.consume, rfl, matched_consume hx hw⟩
      have hbehind : y.coming = k :: (dotted ks ++ rest) :=
        (List.cons.inj (hdot.coming_eq.symm.trans hw)).2
      obtain ⟨z, hz, hpart⟩ := hitem hdot.proper hbehind hk
      have hnext : x.kindAt 1 = .dot := by
        rw [kindAt_one hx, hw, dotted_cons, List.cons_append, next_cons]
      have hcoming : z.coming = dotted ks ++ rest :=
        (List.cons.inj (hpart.coming_eq.symm.trans hbehind)).2
      obtain ⟨u, hu, hmore⟩ := ih hks (Nat.le_of_succ_le_succ hm) hpart.proper
        hpart.recovering_eq hcoming
      refine ⟨u, ?_, (hdot.trans hpart).trans hmore⟩
      show (if x.kindAt 1 = .dot then (do
          consume
          item
          more .dot item m)
        else pure () : Run Unit) x = _
      rw [if_pos hnext, bind_ok hy, bind_ok hz, hu]

/-- **A name that comes next is matched**, part by part, where no dot stands behind its last part
and two more rules may be opened. -/
theorem parse_name (options : Options) (f : Nat) (hd : 2 ≤ d)
    (hks : ∀ k' ∈ k :: ks, isName k' = true) (hrest : next rest ≠ .dot) (hx : x.stream.Proper)
    (hw : x.coming = k :: dotted ks ++ rest) :
    ∃ y, parseRule options d .qualifiedName f x = .ok () y ∧ Matched (k :: dotted ks) x y := by
  obtain ⟨d, rfl⟩ : ∃ d', d = d' + 2 := ⟨d - 2, by omega⟩
  obtain ⟨hk, hks⟩ := List.forall_mem_cons.mp hks
  let s := x.enter (.ofRule .qualifiedName) f
  let part := parseRule options (d + 1) .identifier 0
  obtain ⟨y, hy, hfirst⟩ : ∃ y, part s = .ok () y ∧ Matched [k] s y :=
    parse_identifier options d 0 hx hw hk
  have hcoming : y.coming = dotted ks ++ rest :=
    (List.cons.inj (hfirst.coming_eq.symm.trans hw)).2
  -- The name has no more parts than there are tokens to come.
  have hlen : ks.length ≤ y.stream.remaining := by
    rw [hfirst.proper.remaining_eq, ← State.coming, hcoming, List.length_append]
    exact Nat.le_trans (length_le_dotted ks) (Nat.le_add_right _ _)
  obtain ⟨z, hz, hmore⟩ := more_matched (parse_identifier options d 0) hks hrest hlen
    hfirst.proper hfirst.recovering_eq hcoming
  refine ⟨z.leave, ?_, (hfirst.trans hmore).leave⟩
  have hlist : list .dot part s = .ok () z := by
    rw [list, bind_ok hy]
    exact hz
  rw [parseRule, within_eq, body, hlist]
  rfl

/-- No rule is opened where none may be. -/
theorem parseRule_zero (options : Options) (r : Rule) (f : Nat) (x : State) :
    ∃ e y, parseRule options 0 r f x = .error .halt y ∧
      y.failure = x.failure.or (some (.tooDeep e)) := by
  refine ⟨(x.enter (.ofRule r) f).errorHere (.tooDeep options.maxDepth) ∅, _, rfl, ?_⟩
  rw [failure_leave]
  rfl

/-- A name is not matched where fewer than two more rules may be opened. -/
theorem parse_name_tooDeep (options : Options) (f : Nat) (hd : d < 2) (x : State) :
    ∃ e y, parseRule options d .qualifiedName f x = .error .halt y ∧
      y.failure = x.failure.or (some (.tooDeep e)) := by
  match d with
  | 0 => exact parseRule_zero options .qualifiedName f x
  | 1 =>
    obtain ⟨e, y, hy, hfailure⟩ :=
      parseRule_zero options .identifier 0 (x.enter (.ofRule .qualifiedName) f)
    refine ⟨e, y.leave, ?_, (failure_leave y).trans hfailure⟩
    rw [parseRule, within_eq, body, list, bind_error hy]
    rfl

/-- **The name and the `=` of an assignment are matched**, in any state of a parse, and the rule of
fields goes on behind them. -/
theorem parse_assigned (options : Options) (hd : 2 ≤ d) (hx : x.stream.Proper)
    (h : field? x.stream = some .assignment) :
    ∃ w y z, Derives [.rule .qualifiedName] w ∧
      parseRule options d .qualifiedName 0 x = .ok () y ∧ Matched w x y ∧
      expect options.strategy .assign y = .ok () z ∧ Matched [.assign] y z ∧
      field options.strategy (parseRule options d) x =
        parseRule options d .booleanExpression 0 z := by
  -- The scan has found the parts of the name, and an `=` where the rules of names look for a dot.
  obtain ⟨k, ks, hks, rest, hrest⟩ : Assigned x.coming := by
    rw [State.coming, ← fieldForm?_eq_assignment, ← field?_eq hx, h]
  have hcoming : x.coming = k :: dotted ks ++ .assign :: rest := by
    rw [← hrest, List.append_assoc]
    rfl
  have hassign : next (.assign :: rest) ≠ .dot := by
    rw [next_cons]
    decide
  obtain ⟨y, hy, hname⟩ := parse_name options 0 hd hks hassign hx hcoming
  have hbehind : y.coming = .assign :: rest :=
    List.append_cancel_left (hname.coming_eq.symm.trans hcoming)
  obtain ⟨z, hz, heq⟩ := expect_matched options.strategy hname.proper hbehind
  refine ⟨_, y, z, derives_name hks, hy, hname, hz, heq, ?_⟩
  show fieldBody options.strategy (parseRule options d) (field? x.stream) x = _
  rw [h, fieldBody, bind_ok hy, bind_ok hz]

/-! ## The prediction of a field -/

/-- **The prediction of a field looks ahead as far as it has to.** On the stream of any tokens, with
its cursor moved anywhere, it finds no field iff no field starts with the current token, an
assignment iff a name of any number of parts and `=` come next, and otherwise an expression; its
scan for the end of the name stops. Where it finds an assignment, the name and the `=` are matched
with no error, in any state of a parse that may open two more rules; in one that may not, the parse
ends for that reason. Where it finds an expression, no word of the other alternative comes next. -/
theorem field_predicted (ts : List Token) (moves : List TokenStream.Move) :
    let s := (TokenStream.ofList ts).after moves
    (field? s = none ↔ s.kindAt 1 ∉ Rule.field.first) ∧
    (field? s = some .assignment ↔ Assigned s.coming) ∧
    (field? s = some .expression ↔ s.kindAt 1 ∈ Rule.field.first ∧ ¬ Assigned s.coming) ∧
    (∀ e, Scans s 2 e ↔ e = nameEnd s s.remaining 2) ∧
    (field? s = some .assignment → ∀ options d x, x.stream = s →
      (2 ≤ d → ∃ w y z, Derives [.rule .qualifiedName] w ∧
        parseRule options d .qualifiedName 0 x = .ok () y ∧ Matched w x y ∧
        expect options.strategy .assign y = .ok () z ∧ Matched [.assign] y z ∧
        field options.strategy (parseRule options d) x =
          parseRule options d .booleanExpression 0 z) ∧
      (d < 2 → ∃ e y, parseRule options d .qualifiedName 0 x = .error .halt y ∧
        y.failure = x.failure.or (some (.tooDeep e)))) ∧
    (field? s = some .expression → ∀ w,
      Derives [.rule .qualifiedName, .token .assign, .rule .booleanExpression] w →
        ¬ w <+: s.coming) := by
  intro s
  have hs : s.Proper := (TokenStream.proper_ofList ts).after moves
  have hnone : field? s = none ↔ s.kindAt 1 ∉ Rule.field.first := by
    rw [field?_eq hs, hs.kindAt_one, fieldForm?_eq_none]
  have hassignment : field? s = some .assignment ↔ Assigned s.coming := by
    rw [field?_eq hs, fieldForm?_eq_assignment]
  refine ⟨hnone, hassignment, ?_, scans_iff hs,
    fun h options d x hx => ⟨fun hd => ?_, fun hd => ?_⟩, fun h w hw => ?_⟩
  · rw [← hassignment, ← Decidable.not_not (p := s.kindAt 1 ∈ _), ← hnone]
    rcases field? s with _ | _ | _ <;> simp
  · exact parse_assigned options hd (hx ▸ hs) (hx ▸ h)
  · exact parse_name_tooDeep options 0 hd x
  · exact not_prefix_of_expression ((field?_eq hs).symm.trans h) hw

/-- An assignment to a name of two parts, and a name of one part that is compared. -/
theorem field_predicted_parts :
    let ts := [.name, .dot, .quotedName, .assign, .integer].map Token.ofKind
    let s := (TokenStream.ofList ts).after [.consume, .seek 0]
    let t := (TokenStream.ofList ([.name, .dot, .equal, .name].map Token.ofKind)).after []
    (Assigned s.coming ∧ Scans s 2 4 ∧
      (∃ w y z, Derives [.rule .qualifiedName] w ∧
        parseRule .standard 2 .qualifiedName 0 (.start s) = .ok () y ∧ Matched w (.start s) y ∧
        expect .recover .assign y = .ok () z ∧ Matched [.assign] y z ∧
        field .recover (parseRule .standard 2) (.start s) =
          parseRule .standard 2 .booleanExpression 0 z) ∧
      ∃ e y, parseRule .standard 1 .qualifiedName 0 (.start s) = .error .halt y ∧
        y.failure = some (.tooDeep e)) ∧
    ¬ Assigned t.coming ∧ Scans t 2 2 ∧
      ∀ w, Derives [.rule .qualifiedName, .token .assign, .rule .booleanExpression] w →
        ¬ w <+: t.coming := by
  intro ts s t
  obtain ⟨-, hassigned, -, hscan, hmatch, -⟩ := field_predicted ts [.consume, .seek 0]
  obtain ⟨-, -, hexpression, hscan', -, hderives⟩ := field_predicted
    ([.name, .dot, .equal, .name].map Token.ofKind) []
  have hs : field? s = some .assignment := by decide
  have ht : field? t = some .expression := by decide
  exact ⟨⟨hassigned.mp hs, (hscan 4).mpr (by decide),
    (hmatch hs .standard 2 (.start s) rfl).1 (by decide),
    (hmatch hs .standard 1 (.start s) rfl).2 (by decide)⟩,
    (hexpression.mp ht).2, (hscan' 2).mpr (by decide), hderives ht⟩

end PipeQuery.Parser

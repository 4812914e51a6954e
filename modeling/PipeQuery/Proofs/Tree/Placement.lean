import Mathlib.Data.List.Basic
import PipeQuery.Proofs.Tree.Errors

/-!
# Where errors stand in an arena

What is said of each error and the node that it is attached to, its label and its span, is checked
again only where one of the three changes: where an error is attached, a node gets another label, or
a node is closed.

## Main definitions

* `Arena.errors`: the errors in the order in which they were attached
* `Arena.EachError`: what holds of each error, and of the place, the label and the span of its node

## Main results

* `Arena.errors_attach`: an error that is attached stands behind those attached before
* `Arena.EachError.modify`: what holds of each error when a node changes
* `Arena.EachError.attach`, `Arena.EachError.openNode`, `Arena.EachError.wrap`, ...: what holds of
  each error behind the operations
-/

namespace PipeQuery.Arena

variable {a b : Arena} {id prev : NodeId} {e : SyntaxError}

/-! ## The order of the errors -/

/-- The errors in the order in which they were attached. -/
def errors (a : Arena) : List SyntaxError := a.reported.toList.filterMap a.errorAt

theorem SameErrors.errors_eq (h : SameErrors a b) : b.errors = a.errors := by
  rw [errors, h.reported_eq, errors]
  exact congrArg (fun g => a.reported.toList.filterMap g) (funext h.errorAt_eq)

theorem Reports.mem_errors (h : a.Reports) : e ∈ a.errors ↔ ∃ id, a.errorAt id = some e := by
  rw [errors, List.mem_filterMap]
  refine exists_congr fun id => and_iff_right_of_imp fun he => ?_
  rw [Array.mem_toList_iff, h.mem_iff, he]
  rfl

/-- **An error that is attached stands behind those attached before.** -/
theorem errors_attach_of_none (h : a.Reports) (hid : id < a.size) (hnone : a.errorAt id = none)
    (e : SyntaxError) : (a.attach id e).errors = a.errors ++ [e] := by
  obtain ⟨hreported, herror⟩ := attach_of_errorAt_none hid hnone e
  have hold : a.reported.toList.filterMap (a.attach id e).errorAt = a.errors := by
    refine List.filterMap_congr fun i hi => ?_
    have hsome := (h.mem_iff i).mp (Array.mem_toList_iff.mp hi)
    rw [herror, if_neg]
    rintro rfl
    rw [hnone] at hsome
    cases hsome
  rw [errors, hreported, Array.toList_push, List.filterMap_append, hold]
  simp [herror]

theorem errors_attach (h : a.Reports) (id : NodeId) (e : SyntaxError) :
    (a.attach id e).errors = a.errors ∨ (a.attach id e).errors = a.errors ++ [e] := by
  rcases a.attach_cases id e with hsame | ⟨hid, hnone, -, -⟩
  · rw [hsame]
    exact .inl rfl
  · exact .inr (errors_attach_of_none h hid hnone e)

/-! ## Errors and their nodes -/

/-- What holds of each error, and of the place, the label and the span of its node. -/
def EachError (a : Arena) (Q : NodeId → Label → TokenSpan → SyntaxError → Prop) : Prop :=
  ∀ id n e, a.nodes[id]? = some n → n.error = some e → Q id n.label n.span e

variable {Q R : NodeId → Label → TokenSpan → SyntaxError → Prop}

theorem eachError_empty : empty.EachError Q := fun id _ _ hn => by cases hn

/-- **What holds of each error when a node changes** follows from what held before. -/
theorem EachError.modify (h : a.EachError Q) {f : Node → Node}
    (hid : ∀ n e, a.nodes[id]? = some n → (f n).error = some e → R id (f n).label (f n).span e)
    (hother : ∀ i l span e, id ≠ i → Q i l span e → R i l span e) :
    (a.modify id f).EachError R := by
  intro i n e hn he
  rw [getElem?_modify] at hn
  split at hn
  · rename_i hi
    subst hi
    rw [Option.map_eq_some_iff] at hn
    obtain ⟨m, hm, rfl⟩ := hn
    exact hid m e hm he
  · rename_i hi
    exact hother i n.label n.span e hi (h i n e hn he)

/-- A change that leaves labels, spans and errors alone. -/
theorem EachError.modify_same (h : a.EachError Q) {f : Node → Node}
    (hl : ∀ n, (f n).label = n.label) (hs : ∀ n, (f n).span = n.span) (he : ∀ n, (f n).error = n.error) :
    (a.modify id f).EachError Q := by
  refine h.modify (fun n e hn hf => ?_) fun _ _ _ _ _ hQ => hQ
  rw [he] at hf
  rw [hl, hs]
  exact h id n e hn hf

theorem EachError.push (h : a.EachError Q) (id : NodeId) (slot : Slot) :
    (a.push id slot).EachError Q :=
  h.modify_same (fun _ => rfl) (fun _ => rfl) fun _ => rfl

theorem EachError.relabel (h : a.EachError Q) {n : Node} (hn : a.nodes[id]? = some n) {l : Label}
    (hQ : ∀ span e, Q id n.label span e → Q id l span e) : (a.relabel id l).EachError Q := by
  refine h.modify (fun m e hm he => ?_) fun _ _ _ _ _ hQ => hQ
  obtain rfl : n = m := Option.some.inj (hn.symm.trans hm)
  exact hQ n.span e (h id n e hn he)

theorem EachError.close (h : a.EachError Q) {stop : Nat}
    (hid : ∀ l span e, Q id l span e → R id l ⟨span.start, max stop span.start⟩ e)
    (hother : ∀ i l span e, id ≠ i → Q i l span e → R i l span e) : (a.close id stop).EachError R :=
  h.modify (fun n e hn he => hid n.label n.span e (h id n e hn he)) hother

theorem EachError.pushNode (h : a.EachError Q) {n : Node} (hn : n.error = none) :
    (a.pushNode n).EachError Q := by
  intro i m e hm he
  rw [Arena.pushNode, Array.getElem?_push] at hm
  split at hm
  · cases hm
    rw [hn] at he
    cases he
  · exact h i m e hm he

theorem EachError.openNode (h : a.EachError Q) (label : Label) (parent : Option NodeId)
    (start : Nat) : (a.openNode label parent start).EachError Q := by
  have hpush := h.pushNode (n := ⟨label, parent, #[], ⟨start, start⟩, none⟩) rfl
  cases parent with
  | none => exact hpush
  | some id => exact hpush.push id _

/-- The node that is wrapped is closed, and the new one has no error. -/
theorem EachError.wrap (h : a.EachError Q) {label : Label} {stop : Nat}
    (hid : ∀ l span e, Q prev l span e → R prev l ⟨span.start, max stop span.start⟩ e)
    (hother : ∀ i l span e, prev ≠ i → Q i l span e → R i l span e) :
    (a.wrap prev label stop).EachError R := by
  let old : Node := (a.close prev stop).nodes[prev]?.getD default
  have hnew : ((a.close prev stop).pushNode
      ⟨label, old.parent, #[.node prev], old.span, none⟩).EachError R :=
    (h.close hid hother).pushNode rfl
  unfold Arena.wrap
  refine EachError.modify_same ?_ (fun _ => rfl) (fun _ => rfl) fun _ => rfl
  split
  · exact hnew.modify_same (fun _ => rfl) (fun _ => rfl) fun _ => rfl
  · exact hnew

theorem EachError.attach (h : a.EachError Q) {n : Node} (hn : a.nodes[id]? = some n)
    (hQ : Q id n.label n.span e) : (a.attach id e).EachError Q := by
  rw [Arena.attach]
  split
  · refine EachError.modify h (f := fun n => { n with error := some e }) (fun m e' hm he => ?_)
      fun _ _ _ _ _ hQ => hQ
    cases he
    obtain rfl : n = m := Option.some.inj (hn.symm.trans hm)
    exact hQ
  · exact h

end PipeQuery.Arena

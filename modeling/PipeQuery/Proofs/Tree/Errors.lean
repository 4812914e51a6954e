import PipeQuery.Proofs.Tree.Path

/-!
# The errors in an arena

Of all that is done to an arena, only one operation touches the errors: an error is attached to a
node that has none, and the node is noted behind those noted before. So what is said of the errors
of a tree is said of the operation that attaches them.

## Main definitions

* `Arena.errorAt`: the error of a node
* `Arena.SameErrors`: arenas whose nodes have the same errors, noted in the same order
* `Arena.Reports`: the nodes noted are those with an error, each once

## Main results

* `Arena.sameErrors_push`, `Arena.sameErrors_openNode`, `Arena.sameErrors_wrap`, ...: the operations
  that leave the errors alone
* `Arena.attach_cases`: what becomes of the errors when one is attached
-/

namespace PipeQuery.Arena

variable {a b c : Arena} {id i : NodeId} {e : SyntaxError}

/-- The error of a node, if it has one. -/
def errorAt (a : Arena) (id : NodeId) : Option SyntaxError := a.nodes[id]?.bind Node.error

/-- The nodes have the same errors, noted in the same order. -/
structure SameErrors (a b : Arena) : Prop where
  reported_eq : b.reported = a.reported
  errorAt_eq : ∀ i, b.errorAt i = a.errorAt i

theorem SameErrors.refl (a : Arena) : SameErrors a a := ⟨rfl, fun _ => rfl⟩

theorem SameErrors.trans (h : SameErrors a b) (h' : SameErrors b c) : SameErrors a c :=
  ⟨h'.reported_eq.trans h.reported_eq, fun i => (h'.errorAt_eq i).trans (h.errorAt_eq i)⟩

/-! ## What leaves the errors alone -/

theorem sameErrors_modify (a : Arena) (id : NodeId) {f : Node → Node}
    (hf : ∀ n, (f n).error = n.error) : SameErrors a (a.modify id f) := by
  refine ⟨rfl, fun i => ?_⟩
  rw [errorAt, getElem?_modify, errorAt]
  split
  · cases a.nodes[i]? with
    | none => rfl
    | some n => exact hf n
  · rfl

theorem sameErrors_pushNode (a : Arena) {n : Node} (hn : n.error = none) :
    SameErrors a (a.pushNode n) := by
  refine ⟨rfl, fun i => ?_⟩
  rw [errorAt, pushNode, Array.getElem?_push, errorAt]
  split
  · rename_i hi
    rw [hi, Array.getElem?_eq_none (Nat.le_refl _)]
    exact hn
  · rfl

theorem sameErrors_push (a : Arena) (id : NodeId) (slot : Slot) : SameErrors a (a.push id slot) :=
  sameErrors_modify a id fun _ => rfl

theorem sameErrors_close (a : Arena) (id : NodeId) (stop : Nat) : SameErrors a (a.close id stop) :=
  sameErrors_modify a id fun _ => rfl

theorem sameErrors_relabel (a : Arena) (id : NodeId) (label : Label) :
    SameErrors a (a.relabel id label) :=
  sameErrors_modify a id fun _ => rfl

theorem sameErrors_openNode (a : Arena) (label : Label) (parent : Option NodeId) (start : Nat) :
    SameErrors a (a.openNode label parent start) := by
  have hpush := sameErrors_pushNode a (n := ⟨label, parent, #[], ⟨start, start⟩, none⟩) rfl
  cases parent with
  | none => exact ⟨hpush.reported_eq, hpush.errorAt_eq⟩
  | some id => exact hpush.trans (sameErrors_push _ id _)

theorem sameErrors_wrap (a : Arena) (prev : NodeId) (label : Label) (stop : Nat) :
    SameErrors a (a.wrap prev label stop) := by
  let old : Node := (a.close prev stop).nodes[prev]?.getD default
  have hnew : SameErrors a
      ((a.close prev stop).pushNode ⟨label, old.parent, #[.node prev], old.span, none⟩) :=
    (sameErrors_close a prev stop).trans (sameErrors_pushNode _ rfl)
  unfold wrap
  refine SameErrors.trans ?_ (sameErrors_modify _ prev fun _ => rfl)
  split
  · exact hnew.trans (sameErrors_modify _ _ fun _ => rfl)
  · exact ⟨hnew.reported_eq, hnew.errorAt_eq⟩

/-! ## Attaching an error -/

theorem root_attach (a : Arena) (id : NodeId) (e : SyntaxError) :
    (a.attach id e).root = a.root := by
  rw [attach]
  split <;> rfl

/-- The arena once an error is attached: a node that has an error, or does not exist, takes no
other. -/
theorem attach_cases (a : Arena) (id : NodeId) (e : SyntaxError) :
    a.attach id e = a ∨
      (id < a.size ∧ a.errorAt id = none ∧ (a.attach id e).reported = a.reported.push id ∧
        ∀ i, (a.attach id e).errorAt i = if id = i then some e else a.errorAt i) := by
  rw [attach]
  split
  · rename_i label parent children span hnode
    have hid := (Array.getElem?_eq_some_iff.mp hnode).1
    refine .inr ⟨hid, by rw [errorAt, hnode]; rfl, rfl, fun i => ?_⟩
    show (a.modify id fun n => { n with error := some e }).errorAt i = _
    rw [errorAt, getElem?_modify]
    by_cases hi : id = i
    · subst hi
      rw [if_pos rfl, if_pos rfl, hnode]
      rfl
    · rw [if_neg hi, if_neg hi, errorAt]
  · exact .inl rfl

/-- A node without an error takes the one that is attached. -/
theorem attach_of_errorAt_none (hid : id < a.size) (h : a.errorAt id = none) (e : SyntaxError) :
    (a.attach id e).reported = a.reported.push id ∧
      ∀ i, (a.attach id e).errorAt i = if id = i then some e else a.errorAt i := by
  rcases a.attach_cases id e with hsame | ⟨-, -, hreported, herror⟩
  · -- There is room for the error.
    exfalso
    have hnode : a.nodes[id]? = some a.nodes[id] := Array.getElem?_eq_getElem hid
    rw [errorAt, hnode] at h
    have hattach : (a.attach id e).reported = a.reported.push id := by
      rw [attach, hnode]
      generalize a.nodes[id] = n at h
      obtain ⟨label, parent, children, span, error⟩ := n
      obtain rfl : error = none := h
      rfl
    have hsize := congrArg Array.size hattach
    rw [hsame, Array.size_push] at hsize
    omega
  · exact ⟨hreported, herror⟩

theorem errorAt_attach_self (hid : id < a.size) (h : a.errorAt id = none) (e : SyntaxError) :
    (a.attach id e).errorAt id = some e := by
  rw [(attach_of_errorAt_none hid h e).2, if_pos rfl]

/-- A node with an error takes no other. -/
theorem attach_of_errorAt_some {e' : SyntaxError} (h : a.errorAt id = some e') (e : SyntaxError) :
    a.attach id e = a := by
  rcases a.attach_cases id e with hsame | ⟨-, hnone, -⟩
  · exact hsame
  · rw [hnone] at h
    cases h

/-- An error stays with its node. -/
theorem errorAt_attach_of_some {e' : SyntaxError} (h : a.errorAt i = some e') (id : NodeId)
    (e : SyntaxError) : (a.attach id e).errorAt i = some e' := by
  rcases a.attach_cases id e with hsame | ⟨-, hnone, -, herror⟩
  · rw [hsame, h]
  · rw [herror, if_neg, h]
    rintro rfl
    rw [hnone] at h
    cases h

/-- An error in the arena was there before, or is the one attached. -/
theorem errorAt_attach {e' : SyntaxError} (h : (a.attach id e).errorAt i = some e') :
    a.errorAt i = some e' ∨ e' = e := by
  rcases a.attach_cases id e with hsame | ⟨-, -, -, herror⟩
  · rw [hsame] at h
    exact .inl h
  · rw [herror] at h
    split at h
    · cases h
      exact .inr rfl
    · exact .inl h

/-! ## The nodes noted -/

/-- The nodes noted are those with an error, each once. -/
structure Reports (a : Arena) : Prop where
  nodup : a.reported.toList.Nodup
  mem_iff : ∀ i, i ∈ a.reported ↔ (a.errorAt i).isSome = true

theorem reports_empty : empty.Reports := by
  constructor
  · exact List.nodup_nil
  · intro i
    simp [empty, errorAt]

theorem Reports.congr (h : a.Reports) (hab : SameErrors a b) : b.Reports := by
  constructor
  · rw [hab.reported_eq]
    exact h.nodup
  · intro i
    rw [hab.reported_eq, hab.errorAt_eq]
    exact h.mem_iff i

theorem Reports.attach (h : a.Reports) (id : NodeId) (e : SyntaxError) :
    (a.attach id e).Reports := by
  rcases a.attach_cases id e with hsame | ⟨-, hnone, hreported, herror⟩
  · rw [hsame]
    exact h
  -- A node that takes an error has none before, so it has not been noted yet.
  have hid : id ∉ a.reported := by
    rw [h.mem_iff, hnone]
    exact Bool.false_ne_true
  constructor
  · rw [hreported, Array.toList_push]
    refine List.nodup_append.mpr ⟨h.nodup, by simp, ?_⟩
    intro i hi j hj hij
    rw [List.mem_singleton.mp hj] at hij
    exact hid (hij ▸ Array.mem_toList_iff.mp hi)
  · intro i
    rw [hreported, herror, Array.mem_push, h.mem_iff]
    by_cases hi : id = i
    · simp [hi]
    · simp [hi, Ne.symm hi]

/-- A node that is noted exists. -/
theorem Reports.lt_size (h : a.Reports) (hi : i ∈ a.reported) : i < a.size := by
  have hsome := (h.mem_iff i).mp hi
  apply Nat.lt_of_not_le
  intro hle
  rw [errorAt, Array.getElem?_eq_none hle] at hsome
  cases hsome

end PipeQuery.Arena

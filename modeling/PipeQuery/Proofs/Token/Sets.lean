import Mathlib.Data.Finset.Card
import Mathlib.Data.List.Induction
import PipeQuery.Token.KindSet

/-!
# Sets of kinds are finite sets

A set of kinds is a word of 64 bits, and there are 49 kinds. Taking a kind out clears its bit in
the whole word, and the number of elements is counted over the whole word; so all depends on the
fifteen bits that no kind has: no operation sets one of them. A word with this property stands for
the finite set of the kinds whose bits are set, and the operations do to the word what they do to
the set.

## Main definitions

* `KindSet.Represents`: a word stands for a finite set
* `KindSet.Recipe`: a way to build a set, with the word `Recipe.build` and the set `Recipe.members`

## Main results

* `Represents.insert`, `Represents.erase`, `Represents.union`, `represents_ofList`: the operations
* `Represents.size_eq`, `Represents.isEmpty_iff`, `Represents.ext`: what is read off the word
* `Recipe.represents`: whatever is built stands for the set built alike
* `built_faithful`: a set that is built is the finite set of its members
-/

namespace PipeQuery.Token

namespace Kind

theorem map_index_all : all.map index = List.range all.length := by decide

theorem pairwise_all : all.Pairwise (·.index < ·.index) := by
  rw [← List.pairwise_map (R := (· < ·)) (f := index), map_index_all]
  exact List.pairwise_lt_range

/-- Every place in the vocabulary is that of a kind. -/
theorem exists_index_eq {i : Nat} (hi : i < all.length) : ∃ k : Kind, k.index = i := by
  rw [← List.mem_range, ← map_index_all] at hi
  obtain ⟨k, -, hk⟩ := List.mem_map.mp hi
  exact ⟨k, hk⟩

theorem getLsbD_bit_of_ge (k : Kind) {i : Nat} (hi : all.length ≤ i) : k.bit.getLsbD i = false := by
  have hk := k.index_lt
  have hne : k.index ≠ i := by
    rw [length_all] at hi
    omega
  simp [bit, BitVec.getLsbD_twoPow, hne]

end Kind

namespace KindSet

variable {s t : KindSet} {m n : Finset Kind}

/-- The word `s` stands for the finite set `m`: the bits of the members are set, and no bit is that
no kind has. -/
structure Represents (s : KindSet) (m : Finset Kind) : Prop where
  contains_iff : ∀ k, s.contains k = true ↔ k ∈ m
  clear : ∀ i, Kind.all.length ≤ i → s.bits.getLsbD i = false

/-! ## What the operations do -/

theorem represents_empty : Represents ∅ ∅ where
  contains_iff k := by simp
  clear _ _ := BitVec.getLsbD_zero

theorem Represents.insert (h : s.Represents m) (k : Kind) :
    (s.insert k).Represents (Insert.insert k m) where
  contains_iff k' := by
    rw [contains_insert, Bool.or_eq_true, h.contains_iff, decide_eq_true_eq, Finset.mem_insert,
      or_comm, eq_comm]
  clear i hi := by
    rw [KindSet.insert, BitVec.getLsbD_or, h.clear i hi, k.getLsbD_bit_of_ge hi, Bool.or_false]

/-- The bits that no kind has are set in the complement, but the word has none of them. -/
theorem Represents.erase (h : s.Represents m) (k : Kind) :
    (s.erase k).Represents (m.erase k) where
  contains_iff k' := by
    rw [contains_erase, Bool.and_eq_true, h.contains_iff, Bool.not_eq_true',
      decide_eq_false_iff_not, Finset.mem_erase, and_comm, ne_comm]
  clear i hi := by
    rw [KindSet.erase, BitVec.getLsbD_and, h.clear i hi, Bool.false_and]

theorem Represents.union (h : s.Represents m) (h' : t.Represents n) :
    (s ∪ t).Represents (m ∪ n) where
  contains_iff k := by
    rw [contains_union, Bool.or_eq_true, h.contains_iff, h'.contains_iff, Finset.mem_union]
  clear i hi := by
    show (s.bits ||| t.bits).getLsbD i = false
    rw [BitVec.getLsbD_or, h.clear i hi, h'.clear i hi, Bool.or_false]

theorem represents_collect (ks : List Kind) : (collect ks).Represents ks.toFinset := by
  -- The kind listed last is the last to be put in, so the list is taken apart from its end.
  induction ks using List.reverseRecOn with
  | nil => exact represents_empty
  | append_singleton ks k ih =>
    have hset : (ks ++ [k]).toFinset = Insert.insert k ks.toFinset := by
      ext k'
      simp
    rw [collect, List.foldl_concat, hset]
    exact ih.insert k

theorem represents_ofList (ks : List Kind) : (ofList ks).Represents ks.toFinset := by
  rw [← collect_eq_ofList]
  exact represents_collect ks

/-! ## What is read off the word -/

theorem Represents.toList_toFinset (h : s.Represents m) : s.toList.toFinset = m := by
  ext k
  rw [List.mem_toFinset, mem_toList, mem_def, h.contains_iff]

/-- The elements are listed in the order of the vocabulary, each once. -/
theorem pairwise_toList (s : KindSet) : s.toList.Pairwise (·.index < ·.index) :=
  Kind.pairwise_all.filter _

theorem nodup_toList (s : KindSet) : s.toList.Nodup :=
  s.pairwise_toList.imp fun hlt heq => Nat.ne_of_lt hlt (congrArg Kind.index heq)

/-- **The bits set in the whole word are those of the elements.** -/
theorem Represents.size_eq (h : s.Represents m) : s.size = s.toList.length := by
  -- The count over the word is that up to the last kind, and that behind it.
  have hclear : (List.range (64 - Kind.all.length)).countP
      (s.bits.getLsbD ∘ (Kind.all.length + ·)) = 0 := by
    rw [List.countP_eq_zero]
    intro i _
    simp [h.clear _ (Nat.le_add_right Kind.all.length i)]
  have hrange : List.range 64 = List.range Kind.all.length ++
      (List.range (64 - Kind.all.length)).map (Kind.all.length + ·) := by
    rw [← List.range_add, Kind.length_all]
  rw [size, hrange, List.countP_append, List.countP_map, hclear, Nat.add_zero,
    ← Kind.map_index_all, List.countP_map, List.countP_eq_length_filter]
  rfl

theorem Represents.size_eq_card (h : s.Represents m) : s.size = m.card := by
  rw [h.size_eq, ← h.toList_toFinset, List.toFinset_card_of_nodup s.nodup_toList]

/-- **Sets with the same members are the same word.** -/
theorem Represents.ext (h : s.Represents m) (h' : t.Represents m) : s = t := by
  refine KindSet.ext (BitVec.eq_of_getLsbD_eq fun i _ => ?_)
  -- A bit is that of a kind, or no kind has it and it is set in neither word.
  rcases Nat.lt_or_ge i Kind.all.length with hi | hi
  · obtain ⟨k, rfl⟩ := Kind.exists_index_eq hi
    show s.contains k = t.contains k
    rw [Bool.eq_iff_iff, h.contains_iff, h'.contains_iff]
  · rw [h.clear i hi, h'.clear i hi]

theorem Represents.isEmpty_iff (h : s.Represents m) : s.isEmpty = true ↔ s.toList = [] := by
  rw [isEmpty, beq_iff_eq]
  constructor
  · intro hbits
    have hempty : s = ∅ := KindSet.ext hbits
    rw [hempty]
    rfl
  · intro hnil
    have hm : m = ∅ := by rw [← h.toList_toFinset, hnil, List.toFinset_nil]
    rw [h.ext (hm ▸ represents_empty)]
    rfl

/-! ## Sets that are built -/

/-- A way to build a set. -/
inductive Recipe where
  /-- The listed kinds, all at once. -/
  | ofList (ks : List Kind)
  /-- The listed kinds, one after the other. -/
  | collect (ks : List Kind)
  | insert (r : Recipe) (k : Kind)
  | erase (r : Recipe) (k : Kind)
  | union (r r' : Recipe)

namespace Recipe

/-- The word that is built. -/
def build : Recipe → KindSet
  | ofList ks => .ofList ks
  | collect ks => .collect ks
  | insert r k => r.build.insert k
  | erase r k => r.build.erase k
  | union r r' => r.build ∪ r'.build

/-- The finite set that is built alike. -/
def members : Recipe → Finset Kind
  | ofList ks | collect ks => ks.toFinset
  | insert r k => Insert.insert k r.members
  | erase r k => r.members.erase k
  | union r r' => r.members ∪ r'.members

/-- **What is built stands for the set that is built alike.** -/
theorem represents (r : Recipe) : r.build.Represents r.members := by
  induction r with
  | ofList ks => exact represents_ofList ks
  | collect ks => exact represents_collect ks
  | insert r k ih => exact ih.insert k
  | erase r k ih => exact ih.erase k
  | union r r' ih ih' => exact ih.union ih'

end Recipe

/-! ## Sets that are built are finite sets -/

theorem Represents.eq_iff (h : s.Represents m) (h' : t.Represents n) :
    s = t ↔ ∀ k, k ∈ s ↔ k ∈ t := by
  constructor
  · rintro rfl k
    rfl
  · intro hmem
    have hmn : m = n := by
      ext k
      rw [← h.contains_iff, ← h'.contains_iff]
      exact hmem k
    exact h.ext (hmn ▸ h')

/-- Neither the order of a list nor what it repeats matters. -/
theorem ofList_congr {ks ks' : List Kind} (h : ∀ k, k ∈ ks ↔ k ∈ ks') : ofList ks = ofList ks' := by
  refine ((represents_ofList ks).eq_iff (represents_ofList ks')).mpr fun k => ?_
  rw [mem_def, mem_def, contains_ofList, contains_ofList, decide_eq_true_eq, decide_eq_true_eq, h]

/-- **A set that is built is the finite set that is built alike.** The membership test, which is a
mask, tells the members; no bit is set that no kind has, so the word has as many bits set as there
are elements and is zero iff there are none; the elements are the members in the order of the
vocabulary, each once; sets with the same members are the same word; and a list of kinds makes the
same set whether its kinds are put in at once or one after the other, in any order and however
often. -/
theorem built_faithful (r : Recipe) :
    (∀ k, (r.build.contains k = true ↔ k ∈ r.members) ∧
      r.build.contains k = (r.build.bits &&& k.bit != 0#64)) ∧
    (∀ i, Kind.all.length ≤ i → r.build.bits.getLsbD i = false) ∧
    (r.build.size = r.build.toList.length ∧ r.build.size = r.members.card) ∧
    (r.build.isEmpty = true ↔ r.build.toList = []) ∧
    ((∀ k, k ∈ r.build.toList ↔ k ∈ r.members) ∧ r.build.toList.Nodup ∧
      r.build.toList.Pairwise (·.index < ·.index)) ∧
    (∀ r' : Recipe, r.build = r'.build ↔ ∀ k, k ∈ r.build ↔ k ∈ r'.build) ∧
    ∀ ks ks' : List Kind, (∀ k, k ∈ ks ↔ k ∈ ks') →
      ofList ks = ofList ks' ∧ collect ks = ofList ks' ∧ ks.foldl insert ∅ = ofList ks' ∧
        ks.foldl insert r.build = r.build ∪ ofList ks' := by
  have h := r.represents
  refine ⟨fun k => ⟨h.contains_iff k, r.build.contains_eq_mask k⟩, h.clear,
    ⟨h.size_eq, h.size_eq_card⟩, h.isEmpty_iff,
    ⟨fun k => ?_, r.build.nodup_toList, r.build.pairwise_toList⟩,
    fun r' => h.eq_iff r'.represents, fun ks ks' hks => ?_⟩
  · rw [mem_toList, mem_def, h.contains_iff]
  · rw [foldl_insert ks r.build, ← ofList_congr hks]
    exact ⟨rfl, collect_eq_ofList ks, collect_eq_ofList ks, rfl⟩

/-- A set that is built by every operation. -/
theorem built_faithful_mixed :
    let r : Recipe := .union (.erase (.insert (.ofList [.orWord, .andWord]) .notWord) .orWord)
      (.collect [.endOfInput, .pipe, .endOfInput])
    r.build.contains .pipe = true ∧ r.build.contains .orWord = false ∧
      r.build.bits.getLsbD 63 = false ∧ r.build.size = 4 ∧ r.build.isEmpty = false ∧
      r.build.toList = [.pipe, .andWord, .notWord, .endOfInput] ∧
      r.build = (Recipe.ofList [.endOfInput, .notWord, .andWord, .pipe]).build ∧
      [.dot, .comma, .dot].foldl insert r.build = r.build ∪ ofList [.comma, .dot] := by
  intro r
  obtain ⟨hmem, hclear, ⟨-, hcard⟩, hempty, -, heq, hlists⟩ := built_faithful r
  have hlist : r.build.toList = [.pipe, .andWord, .notWord, .endOfInput] := by decide
  refine ⟨((hmem .pipe).1).mpr (by decide), ?_, hclear 63 (by decide), hcard.trans (by decide), ?_,
    hlist, (heq _).mpr fun k => by cases k <;> decide,
    (hlists [.dot, .comma, .dot] [.comma, .dot] fun k => by cases k <;> decide).2.2.2⟩
  · rw [Bool.eq_false_iff, ne_eq, (hmem .orWord).1]
    decide
  · rw [Bool.eq_false_iff, ne_eq, hempty, hlist]
    exact List.cons_ne_nil _ _

end KindSet

end PipeQuery.Token

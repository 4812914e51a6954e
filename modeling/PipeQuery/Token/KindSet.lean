import PipeQuery.Json.Value
import PipeQuery.Token.Kind

/-!
# Sets of token kinds

A set of token kinds, stored as a word of 64 bits: bit `k.index` is set iff `k` is in the set.
Membership is a bit test, and the elements are listed in the order of the vocabulary.

## Main definitions

* `KindSet`, with `∅`, `insert`, `erase`, `∪`, `ofList`, `collect` and the test `contains`
* `KindSet.toList`, `KindSet.size`: the elements and their number
* `KindSet.display`: how messages write a set of expected kinds
* `KindSet.listing`, `KindSet.toJson`: the set by vocabulary names

## Main results

* `contains_empty`, `contains_insert`, `contains_erase`, `contains_union`, `contains_ofList`:
  what each operation does to membership
* `foldl_insert`: the listed kinds, put into a set one after the other
* `mem_toList`: the listed elements are the members
-/

namespace PipeQuery.Token

/-- A set of token kinds, as a word with one bit for each kind. -/
@[ext]
structure KindSet where
  /-- Bit `k.index` tells whether `k` is in the set. -/
  bits : BitVec 64
deriving DecidableEq

/-- The bit of a kind. -/
def Kind.bit (k : Kind) : BitVec 64 := BitVec.twoPow 64 k.index

namespace KindSet

instance : EmptyCollection KindSet := ⟨⟨0#64⟩⟩

instance : Inhabited KindSet := ⟨∅⟩

/-- The set with `k` put in. -/
def insert (s : KindSet) (k : Kind) : KindSet := ⟨s.bits ||| k.bit⟩

/-- The set with `k` taken out. -/
def erase (s : KindSet) (k : Kind) : KindSet := ⟨s.bits &&& ~~~k.bit⟩

instance : Union KindSet := ⟨fun s t => ⟨s.bits ||| t.bits⟩⟩

/-- The set of the listed kinds, whatever their order and however often they are listed. -/
def ofList (ks : List Kind) : KindSet := ⟨ks.foldl (fun bits k => bits ||| k.bit) 0#64⟩

/-- The listed kinds, put into the empty set one after the other. -/
def collect (ks : List Kind) : KindSet := ks.foldl insert ∅

/-- The membership test. -/
def contains (s : KindSet) (k : Kind) : Bool := s.bits.getLsbD k.index

instance : Membership Kind KindSet := ⟨fun s k => s.contains k = true⟩

instance (k : Kind) (s : KindSet) : Decidable (k ∈ s) :=
  inferInstanceAs (Decidable (s.contains k = true))

/-- Whether the set has no bit set. -/
def isEmpty (s : KindSet) : Bool := s.bits == 0#64

/-- The number of bits set, over the whole word. -/
def size (s : KindSet) : Nat := (List.range 64).countP s.bits.getLsbD

/-- The elements, in the order of the vocabulary. -/
def toList (s : KindSet) : List Kind := Kind.all.filter s.contains

/-- How messages write the set: a single kind stands alone, and otherwise the kinds are listed
between braces. -/
def display (s : KindSet) : String :=
  match s.toList.map Kind.display with
  | [single] => single
  | names => "\x7b" ++ ", ".intercalate names ++ "\x7d"

/-- The vocabulary names of the elements, quoted, between braces. -/
def listing (s : KindSet) : String :=
  "\x7b" ++ ", ".intercalate (s.toList.map fun k => "\"" ++ k.symbol ++ "\"") ++ "\x7d"

/-- The vocabulary names of the elements as a JSON array. -/
def toJson (s : KindSet) : Json := .array (s.toList.map fun k => .string k.symbol)

/-! ## Membership after each operation -/

theorem mem_def {k : Kind} {s : KindSet} : k ∈ s ↔ s.contains k = true := Iff.rfl

/-- A kind that is missing from the set is none of its elements. -/
theorem ne_of_contains {k k' : Kind} {s : KindSet} (hk : s.contains k = false)
    (hk' : s.contains k' = true) : k' ≠ k := by
  rintro rfl
  rw [hk] at hk'
  cases hk'

/-- Membership is told by masking the word with the bit of the kind. -/
theorem contains_eq_mask (s : KindSet) (k : Kind) :
    s.contains k = (s.bits &&& k.bit != 0#64) := by
  have hbit : k.bit ≠ 0#64 := by cases k <;> decide
  rw [contains, Kind.bit, BitVec.and_twoPow, ← Kind.bit]
  cases s.bits.getLsbD k.index <;> simp [hbit]

@[simp]
theorem contains_empty (k : Kind) : (∅ : KindSet).contains k = false := by
  simp [contains, EmptyCollection.emptyCollection]

theorem getLsbD_bit (k k' : Kind) : k.bit.getLsbD k'.index = decide (k = k') := by
  have := k.index_lt
  have := k'.index_lt
  simp only [Kind.bit, BitVec.getLsbD_twoPow]
  by_cases h : k = k'
  · subst h; simp only [decide_true, Bool.and_true, decide_eq_true_eq]; omega
  · have : k.index ≠ k'.index := fun e => h (Kind.index_injective e)
    simp [h, this]

@[simp]
theorem contains_insert (s : KindSet) (k k' : Kind) :
    (s.insert k).contains k' = (s.contains k' || decide (k = k')) := by
  simp [contains, insert, getLsbD_bit]

@[simp]
theorem contains_erase (s : KindSet) (k k' : Kind) :
    (s.erase k).contains k' = (s.contains k' && !decide (k = k')) := by
  have := k'.index_lt
  have h : k'.index < 64 := by omega
  simp only [contains, erase, BitVec.getLsbD_and, BitVec.getLsbD_not, getLsbD_bit, h, decide_true,
    Bool.true_and]

@[simp]
theorem contains_union (s t : KindSet) (k : Kind) :
    (s ∪ t).contains k = (s.contains k || t.contains k) := by
  simp [contains, Union.union]

theorem getLsbD_foldl_bit (ks : List Kind) (bits : BitVec 64) (k : Kind) :
    (ks.foldl (fun bits k => bits ||| k.bit) bits).getLsbD k.index =
      (bits.getLsbD k.index || decide (k ∈ ks)) := by
  induction ks generalizing bits with
  | nil => simp
  | cons k' ks ih =>
    simp only [List.foldl_cons, ih, BitVec.getLsbD_or, getLsbD_bit, List.mem_cons, Bool.or_assoc,
      Bool.decide_or, eq_comm (a := k)]

@[simp]
theorem contains_ofList (ks : List Kind) (k : Kind) : (ofList ks).contains k = decide (k ∈ ks) := by
  simp [contains, ofList, getLsbD_foldl_bit]

@[simp]
theorem mem_toList {k : Kind} {s : KindSet} : k ∈ s.toList ↔ k ∈ s := by
  simp [toList, mem_def, Kind.mem_all]

/-! ## Lists of kinds -/

theorem bits_foldl_insert (ks : List Kind) (s : KindSet) :
    (ks.foldl insert s).bits = ks.foldl (fun bits k => bits ||| k.bit) s.bits := by
  induction ks generalizing s with
  | nil => rfl
  | cons k ks ih => exact ih (s.insert k)

/-- The kinds of a list are in the set whether they are put in all at once or one by one. -/
theorem collect_eq_ofList (ks : List Kind) : collect ks = ofList ks :=
  KindSet.ext (bits_foldl_insert ks ∅)

theorem insert_union (s t : KindSet) (k : Kind) : s.insert k ∪ t = s ∪ (insert ∅ k ∪ t) := by
  have hbits : s.bits ||| k.bit ||| t.bits = s.bits ||| (0#64 ||| k.bit ||| t.bits) := by
    rw [BitVec.zero_or, BitVec.or_assoc]
  exact KindSet.ext hbits

/-- The listed kinds, put into a set one after the other. -/
theorem foldl_insert (ks : List Kind) (s : KindSet) : ks.foldl insert s = s ∪ ofList ks := by
  induction ks generalizing s with
  | nil => exact KindSet.ext BitVec.or_zero.symm
  | cons k ks ih =>
    have hcons : ofList (k :: ks) = insert ∅ k ∪ ofList ks := by
      rw [← collect_eq_ofList, collect, List.foldl_cons, ih]
    rw [List.foldl_cons, ih, hcons, insert_union]

end KindSet

end PipeQuery.Token

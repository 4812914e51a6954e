import PipeQuery.Proofs.Grammar.Words
import PipeQuery.Proofs.Tree.Whole

/-!
# Open brackets and signs

How deep a text is nested can be seen from its tokens: from the brackets that are open at once, of
each of the two kinds. A word of the grammar closes the brackets that it opens, and no others, so
what stands behind it is as deep as what stands before it. The operands of prefix operators nest
without brackets; these operators are counted in the tree.

## Main definitions

* `Bracket`: the two kinds of brackets
* `Bracket.behind`, `Bracket.nesting`: the brackets that are open behind a token, and those that are
  open at once in a word
* `Shape.signCount`, `ParseTree.signCount`: the number of prefix operators in a tree

## Main results

* `Bracket.nesting_append`: how deep words are that stand one behind the other
* `Derives.foldl_behind`: a word of the grammar closes the brackets that it opens
* `ParseTree.IsWhole.signCount_eq`: the prefix operators of a tree are those of its shape
-/

namespace PipeQuery

open Token (Kind)

/-- The kinds of brackets: around expressions and arguments, and around queries. -/
inductive Bracket where
  | round
  | square
deriving DecidableEq

namespace Bracket

/-- The token that opens a bracket. -/
def left : Bracket → Kind
  | round => .leftParen
  | square => .leftBracket

/-- The token that closes a bracket. -/
def right : Bracket → Kind
  | round => .rightParen
  | square => .rightBracket

/-- The number of brackets open behind a token, if `n` are open before it. -/
def behind (b : Bracket) (n : Nat) (k : Kind) : Nat :=
  if k = b.left then n + 1 else if k = b.right then n - 1 else n

/-- The largest number of brackets open at once, if `n` are open before the word. -/
def nesting (b : Bracket) : Nat → List Kind → Nat
  | n, [] => n
  | n, k :: w => max n (nesting b (b.behind n k) w)

variable {b : Bracket} {k : Kind} {n : Nat} {v w : List Kind}

theorem behind_of_ne (hl : k ≠ b.left) (hr : k ≠ b.right) : b.behind n k = n := by
  rw [behind, if_neg hl, if_neg hr]

theorem le_nesting (b : Bracket) (n : Nat) (w : List Kind) : n ≤ b.nesting n w := by
  cases w with
  | nil => exact Nat.le_refl n
  | cons => exact Nat.le_max_left _ _

/-- **Words that stand one behind the other** are as deep as the deeper of them. -/
theorem nesting_append (b : Bracket) (n : Nat) (v w : List Kind) :
    b.nesting n (v ++ w) = max (b.nesting n v) (b.nesting (v.foldl b.behind n) w) := by
  induction v generalizing n with
  | nil => exact (Nat.max_eq_right (b.le_nesting n w)).symm
  | cons k v ih => rw [List.cons_append, nesting, ih, nesting, Nat.max_assoc, List.foldl_cons]

/-- The number of brackets open behind a symbol: a rule leaves none open. -/
def behindSymbol (b : Bracket) (n : Nat) : Symbol → Nat
  | .token k => b.behind n k
  | .rule _ => n

/-- Whether a symbol is no bracket. -/
def isPlain : Symbol → Bool
  | .token k => !([.leftParen, .rightParen, .leftBracket, .rightBracket] : List Kind).contains k
  | .rule _ => true

theorem behindSymbol_of_isPlain (b : Bracket) (n : Nat) {s : Symbol} (h : isPlain s = true) :
    b.behindSymbol n s = n := by
  cases s with
  | rule => rfl
  | token k =>
    have hk : ∀ k, isPlain (.token k) = true → ∀ b : Bracket, k ≠ b.left ∧ k ≠ b.right := by
      intro k hk b
      cases b <;> constructor <;> rintro rfl <;> cases hk
    exact behind_of_ne (hk k h b).1 (hk k h b).2

theorem foldl_behindSymbol (b : Bracket) (n : Nat) {ss : List Symbol}
    (h : ∀ s ∈ ss, isPlain s = true) : ss.foldl b.behindSymbol n = n := by
  induction ss with
  | nil => rfl
  | cons s ss ih =>
    obtain ⟨hs, hss⟩ := List.forall_mem_cons.mp h
    rw [List.foldl_cons, behindSymbol_of_isPlain b n hs, ih hss]

end Bracket

open PipeQuery.Bracket

/-! ## Brackets in the grammar -/

theorem isPlain_separated {r : Rule} {k : Kind} {n : Nat} (hk : isPlain (.token k) = true) :
    ∀ s ∈ separated (.rule r) k n, isPlain s = true := by
  intro s hs
  rcases mem_separated hs with rfl | rfl
  · rfl
  · exact hk

/-- **An alternative closes the brackets that it opens.** -/
theorem Production.foldl_behindSymbol {l : Label} {body : List Symbol} (h : Production l body)
    (b : Bracket) (n : Nat) : body.foldl b.behindSymbol n = n := by
  cases h with
  | subqueryExpression | parenthesizedExpression | functionWithout =>
    cases b <;> simp [behindSymbol, behind, left, right]
  | functionWith m =>
    -- Between the parentheses of a call only operands and commas stand.
    have hargs := Bracket.foldl_behindSymbol b (b.behind n .leftParen)
      (isPlain_separated (r := .booleanExpression) (k := .comma) (n := m) rfl)
    rw [List.cons_append, List.cons_append, List.foldl_cons, List.foldl_cons, List.foldl_append]
    show List.foldl b.behindSymbol (List.foldl b.behindSymbol (b.behind n .leftParen) _) _ = n
    rw [hargs]
    cases b <;> simp [behindSymbol, behind, left, right]
  | fromCommand m | sortCommand m | projectCommand m =>
    exact Bracket.foldl_behindSymbol b n (List.forall_mem_cons.mpr ⟨rfl, isPlain_separated rfl⟩)
  | fields m | qualifiedName m | qualifiedNames m =>
    exact Bracket.foldl_behindSymbol b n (isPlain_separated rfl)
  | sourceCommand h | processingCommand h =>
    exact Bracket.foldl_behindSymbol b n (List.forall_mem_singleton.mpr rfl)
  | logicalBinary h | arithmeticUnary h | identifier h | sourceIdentifier h | booleanValue h =>
    refine Bracket.foldl_behindSymbol b n ?_
    simp only [List.mem_cons, List.not_mem_nil, or_false] at h
    rcases h with rfl | rfl <;> decide
  | comparisonOperator h | arithmeticBinary h =>
    refine Bracket.foldl_behindSymbol b n ?_
    have hk := Token.KindSet.mem_toList.mp h
    revert hk
    revert h
    decide +revert
  | orderExpression horder hnulls =>
    refine Bracket.foldl_behindSymbol b n ?_
    simp only [List.mem_cons, List.not_mem_nil, or_false] at horder hnulls
    rcases horder with rfl | rfl | rfl <;> rcases hnulls with rfl | rfl | rfl <;> decide
  | _ => exact Bracket.foldl_behindSymbol b n (by decide)

/-- **A word of the grammar closes the brackets that it opens**, and no others. -/
theorem Derives.foldl_behind {ss : List Symbol} {w : List Kind} (h : Derives ss w) (b : Bracket)
    (n : Nat) : w.foldl b.behind n = ss.foldl b.behindSymbol n := by
  -- By induction on the derivation: each rule in it leaves what its alternative leaves.
  induction h generalizing n with
  | nil => rfl
  | token _ ih => exact ih _
  | rule hl _ _ ihv ihw =>
    rw [List.foldl_append, ihv, hl.foldl_behindSymbol, ihw]
    rfl

theorem Derives.foldl_behind_rule {r : Rule} {w : List Kind} (h : Derives [.rule r] w)
    (b : Bracket) (n : Nat) : w.foldl b.behind n = n :=
  h.foldl_behind b n

/-! ## Prefix operators -/

/-- Whether a label stands for a prefix operator with its operand. -/
def Label.isSigned (l : Label) : Bool := l == .logicalNot || l == .arithmeticUnary

mutual

/-- The number of prefix operators in a tree. -/
def Shape.signCount : Shape → Nat
  | node l ts => (if l.isSigned then 1 else 0) + signCounts ts
  | token _ | discarded _ => 0

/-- The number of prefix operators in trees side by side. -/
def Shape.signCounts : List Shape → Nat
  | [] => 0
  | t :: ts => signCount t + signCounts ts

end

theorem Shape.signCounts_append (ts us : List Shape) :
    signCounts (ts ++ us) = signCounts ts + signCounts us := by
  induction ts with
  | nil => exact (Nat.zero_add _).symm
  | cons t ts ih => rw [List.cons_append, signCounts, ih, signCounts, Nat.add_assoc]

namespace Branch

variable {t : ParseTree}

mutual

theorem signCount_shape : ∀ b : Branch,
    (b.shape t).signCount = b.preorder.countP fun id => (t.label id).isSigned
  | .node id children => by
    rw [shape, Shape.signCount, preorder, List.countP_cons, signCounts_shapes children,
      Nat.add_comm]
  | .token _ | .discarded _ => rfl

theorem signCounts_shapes : ∀ bs : List Branch,
    Shape.signCounts (shapes t bs) = (preorderOf bs).countP fun id => (t.label id).isSigned
  | [] => rfl
  | b :: bs => by
    rw [shapes, Shape.signCounts, preorderOf, List.countP_append, signCount_shape b,
      signCounts_shapes bs]

end

end Branch

/-- The number of prefix operators in a parse tree: of its nodes that stand for one. -/
def ParseTree.signCount (t : ParseTree) : Nat :=
  (t.preorder t.root).countP fun id => (t.label id).isSigned

/-- **The prefix operators of a tree** are those of its shape. -/
theorem ParseTree.IsWhole.signCount_eq {t : ParseTree} {x : Subtree} (h : t.IsWhole x) :
    t.signCount = (x.shape t.tokens).signCount := by
  have hmem := h.root_mem
  have hshape := h.shape_root
  obtain ⟨l, span, e, children, rfl⟩ := h.exists_root
  rw [← hshape, shape, Branch.signCount_shape, signCount, h.preorder_eq hmem, h.branch_eq hmem]

end PipeQuery

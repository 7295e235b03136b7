import Mathlib.Algebra.BigOperators.Group.Finset.Piecewise
import Mathlib.Algebra.BigOperators.Group.Finset.Sigma

/-! Sums over lists and over pairs of positions, in any commutative monoid: numbers of entries are
added up by the same lemmas as coefficients. -/

namespace BinaryQuadratic

open Finset

variable {M β : Type} [AddCommMonoid M]

theorem sum_map_filter (p : β → Bool) (f : β → M) (l : List β) :
    ((l.filter p).map f).sum = (l.map fun b => if p b then f b else 0).sum := by
  induction l with
  | nil => rfl
  | cons b l ih =>
    rw [List.filter_cons]
    split <;> simp_all

theorem sum_map_eq_sum_range {f : β → M} {a : Nat → M} {l : List β}
    (h : ∀ k b, l[k]? = some b → f b = a k) : (l.map f).sum = ∑ k ∈ range l.length, a k := by
  induction l generalizing a with
  | nil => simp
  | cons b l ih =>
    have hrest := ih (a := fun k => a (k + 1)) fun k c hc => h (k + 1) c hc
    rw [List.map_cons, List.sum_cons, hrest, h 0 b rfl, List.length_cons, Finset.sum_range_succ',
      add_comm]

theorem sum_sum_eq_add {a : Nat → Nat → M} (hsymm : ∀ i j, a i j = a j i)
    (hdiag : ∀ i, a i i = 0) (n : Nat) :
    ∑ i ∈ range n, ∑ j ∈ range n, a i j =
      ∑ i ∈ range n, ∑ j ∈ range n, (if i < j then a i j else 0) +
        ∑ i ∈ range n, ∑ j ∈ range n, if i < j then a i j else 0 := by
  have hsplit : ∀ i j, a i j = (if i < j then a i j else 0) + (if j < i then a j i else 0) := by
    intro i j
    obtain h | rfl | h := lt_trichotomy i j
    · simp [h, h.not_gt]
    · simp [hdiag]
    · simp [h, h.not_gt, hsymm i j]
  have hswap : ∑ i ∈ range n, ∑ j ∈ range n, (if j < i then a j i else 0) =
      ∑ i ∈ range n, ∑ j ∈ range n, (if i < j then a i j else 0) := Finset.sum_comm
  have hrows : ∀ i, ∑ j ∈ range n, a i j =
      ∑ j ∈ range n, (if i < j then a i j else 0) +
        ∑ j ∈ range n, (if j < i then a j i else 0) := fun i => by
    rw [← Finset.sum_add_distrib]
    exact Finset.sum_congr rfl fun j _ => hsplit i j
  simp only [hrows, Finset.sum_add_distrib, hswap]

end BinaryQuadratic

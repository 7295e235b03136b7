import Mathlib.Analysis.SpecialFunctions.Log.Basic
import Mathlib.Algebra.BigOperators.Field
import BinaryQuadratic.Coefficient
import BinaryQuadratic.Proofs.Coefficient.Comparison
import BinaryQuadratic.Proofs.Sums

/-! Coefficients without rounding. All laws of an ordered field hold; exponential and logarithm
may be any functions. The reals are such coefficients. Modules about them import this one first, so
that an operation of coefficients is always found before that of a field. -/

namespace BinaryQuadratic.Coefficient

open Finset

class Exact (α : Type) extends Field α, LinearOrder α, IsStrictOrderedRing α where
  exp : α → α
  log : α → α
  /-- Stands in for the least of no coefficients. -/
  infinity : α

instance {α : Type} [Exact α] : Coefficient α where
  decLt := inferInstance
  decLe := inferInstance
  magnitude x := |x|
  exp := Exact.exp
  log := Exact.log
  infinity := Exact.infinity
  quotientLt x y z := y ≠ 0 ∧ x / y < z
  isFinite _ := true
  totalLe x y := x ≤ y

noncomputable instance : Exact ℝ where
  exp := Real.exp
  log := Real.log
  infinity := 0

variable {α : Type} [Exact α]

@[simp] theorem sum_eq (l : List α) : sum l = l.sum := by
  simp [sum, List.sum_eq_foldl]

@[simp] theorem isFinite_eq (x : α) : isFinite x = true := rfl

theorem quotientLt_iff {x y z : α} : quotientLt x y z = true ↔ y ≠ 0 ∧ x / y < z := decide_eq_true_iff

@[simp] theorem quotientLt_zero (x z : α) : quotientLt x 0 z = false :=
  decide_eq_false fun h => h.1 rfl

theorem isNumber (x : α) : IsNumber x := BEq.rfl

instance : Comparable α where
  le_trans _ _ _ := le_trans
  le_total a b _ _ := le_total a b
  lt_iff _ _ := lt_iff_le_not_ge
  beq_iff _ _ := beq_iff_eq.trans le_antisymm_iff
  le_of_totalLe _ _ _ _ h := of_decide_eq_true h

instance : NumbersCompared α where
  isNumber_of_le a b _ := ⟨isNumber a, isNumber b⟩

theorem foldl_add {β : Type} (f : β → α) (l : List β) (c : α) :
    l.foldl (fun c b => c + f b) c = c + (l.map f).sum := by
  induction l generalizing c with
  | nil => simp
  | cons b l ih => rw [List.foldl_cons, ih, List.map_cons, List.sum_cons, add_assoc]

theorem sum_map_eq_range (f : α → α) (l : List α) :
    (l.map f).sum = ∑ i ∈ range l.length, f (l.getD i 0) :=
  sum_map_eq_sum_range fun k b hk => by rw [List.getD_eq_getElem?_getD, hk, Option.getD_some]

theorem sum_above_diagonal {a : Nat → Nat → α} (hsymm : ∀ i j, a i j = a j i)
    (hdiag : ∀ i, a i i = 0) (n : Nat) :
    ∑ i ∈ range n, ∑ j ∈ range n, (if i < j then a i j else 0) =
      (∑ i ∈ range n, ∑ j ∈ range n, a i j) / 2 := by
  rw [sum_sum_eq_add hsymm hdiag, add_self_div_two]

theorem maxNum_eq_max (a b : α) : maxNum a b = max a b := by
  rw [maxNum]
  split
  · next h => exact (max_eq_right h.le).symm
  · next h => simp [max_eq_left (not_lt.1 h)]

theorem foldl_maxNum (l : List α) (a : α) :
    a ≤ l.foldl maxNum a ∧ ∀ x ∈ l, x ≤ l.foldl maxNum a :=
  foldl_maxNum_of_isNumber (isNumber a) fun x _ => isNumber x

theorem exists_least? {l : List α} (h : l ≠ []) :
    ∃ a, least? l = some a ∧ a ∈ l ∧ ∀ b ∈ l, a ≤ b :=
  exists_least?_of_isNumber h fun a _ => isNumber a

theorem least?_eq_none_iff {l : List α} : least? l = none ↔ l = [] := by
  refine ⟨fun h => by_contra fun hne => ?_, fun h => h ▸ rfl⟩
  obtain ⟨a, ha, -⟩ := exists_least? hne
  cases h.symm.trans ha

section Scaling

variable {k : α} (hk : 0 < k) (l : List α)

include hk

theorem foldl_maxNum_map_mul (a : α) :
    (l.map (· * k)).foldl maxNum (a * k) = l.foldl maxNum a * k := by
  rw [List.foldl_map]
  refine List.foldl_hom (· * k) fun x y => ?_
  rw [maxNum_eq_max, maxNum_eq_max, max_mul_of_nonneg _ _ hk.le]

theorem least?_map_mul : least? (l.map (· * k)) = (least? l).map (· * k) := by
  unfold least?
  rw [List.foldl_map, ← Option.map_none (· * k)]
  refine List.foldl_hom (Option.map (· * k)) fun m x => ?_
  cases m with
  | none => simp
  | some y =>
    simp only [Option.map_some, BEq.rfl, if_true, mul_lt_mul_iff_left₀ hk]
    split <;> rfl

end Scaling

section Update

variable {i n : Nat} (hi : i < n) (y : Nat → α) (z : α)

theorem update_eq (j : Nat) :
    Function.update y i z j = y j + if j = i then z - y i else 0 := by
  by_cases hj : j = i
  · subst hj
    simp
  · simp [hj]

include hi

theorem sum_mul_update (a : Nat → α) :
    ∑ j ∈ range n, a j * Function.update y i z j = ∑ j ∈ range n, a j * y j + a i * (z - y i) := by
  simp only [update_eq, mul_add, mul_ite, mul_zero, Finset.sum_add_distrib,
    Finset.sum_ite_eq' (range n), Finset.mem_range.2 hi, if_true]

theorem sum_sum_mul_update {w : Nat → Nat → α} (hsymm : ∀ j k, w j k = w k j)
    (hdiag : ∀ j, w j j = 0) :
    ∑ j ∈ range n, ∑ k ∈ range n, w j k * Function.update y i z j * Function.update y i z k =
      ∑ j ∈ range n, ∑ k ∈ range n, w j k * y j * y k +
        2 * (z - y i) * ∑ k ∈ range n, w i k * y k := by
  -- the changed value is met with each other one from both sides, and never with itself
  set d := z - y i with hd
  have hexpand : ∀ j k, w j k * Function.update y i z j * Function.update y i z k =
      w j k * y j * y k + (if j = i then w i k * d * y k else 0) +
        (if k = i then w i j * y j * d else 0) := by
    intro j k
    rw [update_eq, update_eq, ← hd]
    split_ifs with hj hk hk
    · subst hj hk
      rw [hdiag]
      ring
    · subst hj
      ring
    · subst hk
      rw [hsymm j k]
      ring
    · ring
  have hrow : ∑ j ∈ range n, ∑ k ∈ range n, (if j = i then w i k * d * y k else 0) =
      ∑ k ∈ range n, w i k * d * y k := by
    rw [Finset.sum_comm]
    simp only [Finset.sum_ite_eq' (range n), Finset.mem_range.2 hi, if_true]
  have htwice : 2 * d * ∑ k ∈ range n, w i k * y k =
      ∑ k ∈ range n, w i k * d * y k + ∑ k ∈ range n, w i k * y k * d := by
    rw [Finset.mul_sum, ← Finset.sum_add_distrib]
    exact Finset.sum_congr rfl fun k _ => by ring
  simp only [hexpand, Finset.sum_add_distrib, hrow, Finset.sum_ite_eq' (range n),
    Finset.mem_range.2 hi, if_true]
  rw [htwice, add_assoc]

end Update

end BinaryQuadratic.Coefficient

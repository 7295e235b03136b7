import BinaryQuadratic.Proofs.Coefficient.Exact
import BinaryQuadratic.Coefficient.Binary64

/-! The order that records are sorted by, and the sign of finite coefficients. Doubles are sorted as
words, so that a zero with a sign and a value that is not a number have their places too; what is
left of them without these is compared as numbers are. -/

namespace BinaryQuadratic.Coefficient

/-- The total order of coefficients is transitive and leaves no two values incomparable. -/
class TotallyOrdered (α : Type) [Coefficient α] : Prop where
  totalLe_trans : ∀ a b c : α, totalLe a b = true → totalLe b c = true → totalLe a c = true
  totalLe_total : ∀ a b : α, (totalLe a b || totalLe b a) = true

instance {α : Type} [Exact α] : TotallyOrdered α where
  totalLe_trans a b c hab hbc := by
    have h : a ≤ b ∧ b ≤ c := ⟨of_decide_eq_true hab, of_decide_eq_true hbc⟩
    exact decide_eq_true (h.1.trans h.2)
  totalLe_total a b := by
    obtain h | h := le_total a b
    · exact Bool.or_eq_true_iff.2 (.inl (decide_eq_true h))
    · exact Bool.or_eq_true_iff.2 (.inr (decide_eq_true h))

class SignDecided (α : Type) [Coefficient α] : Prop where
  not_nonpos_iff : ∀ a : α, isFinite a = true → (¬a ≤ 0 ↔ 0 < a)

instance {α : Type} [Exact α] : SignDecided α where
  not_nonpos_iff _ _ := not_le

namespace Binary64

theorem totalLe_iff (a b : Float) : totalLe a b = true ↔ orderKey a ≤ orderKey b :=
  decide_eq_true_iff

instance : TotallyOrdered Float where
  totalLe_trans a b c hab hbc := by
    rw [totalLe_iff] at hab hbc ⊢
    exact UInt64.le_trans hab hbc
  totalLe_total a b := by
    rw [Bool.or_eq_true_iff, totalLe_iff, totalLe_iff]
    exact UInt64.le_total _ _

open Float.Model in
theorem not_le_zero_iff {u : UnpackedFloat} (h : u.isFinite = true) :
    ¬u.le (.zero .positive) = true ↔ (UnpackedFloat.zero .positive).lt u = true := by
  cases u with
  | infinity sign => cases h
  | notANumber => cases h
  | zero sign => exact iff_of_false (not_not_intro rfl) Bool.false_ne_true
  | finite sign mantissa exponent hpos =>
    cases sign with
    | positive => exact iff_of_true Bool.false_ne_true rfl
    | negative => exact iff_of_false (not_not_intro rfl) Bool.false_ne_true

instance : SignDecided Float where
  not_nonpos_iff a h := by
    have hle : a ≤ 0 ↔ a.toModel.unpack.le (.zero .positive) = true := decide_eq_true_iff
    have hlt : 0 < a ↔ (Float.Model.UnpackedFloat.zero .positive).lt a.toModel.unpack = true :=
      decide_eq_true_iff
    rw [hle, hlt]
    exact not_le_zero_iff h

end Binary64

end BinaryQuadratic.Coefficient

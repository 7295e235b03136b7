import BinaryQuadratic.Proofs.Coefficient.Binary64.Signs

/-! Doubles from zero up that are too large, or no number at all. Arithmetic with operands that are not
below zero does not lead back from them, and it ends in no number where a zero is multiplied. -/

namespace BinaryQuadratic.Coefficient.Binary64

open Float.Model Float.Model.UnpackedFloat

/-- Too large, or not a number. -/
inductive Excess : UnpackedFloat → Prop
  | notANumber : Excess .notANumber
  | infinity : Excess (.infinity .positive)

variable {a b : Float} {u : UnpackedFloat}

theorem Excess.pack (h : Excess u) : Excess (Float.Model.pack u).unpack := by
  cases h with
  | notANumber => exact .notANumber
  | infinity => exact .infinity

theorem excess_of_notBelow (h : NotBelow a.toModel.unpack) (hfinite : a.isFinite = false) :
    Excess a.toModel.unpack := by
  change a.toModel.unpack.isFinite = false at hfinite
  generalize a.toModel.unpack = u at *
  cases h with
  | notANumber => exact .notANumber
  | infinity => exact .infinity
  | zero s | finite m e hm => cases hfinite

theorem Excess.isFinite_eq_false (h : Excess a.toModel.unpack) : a.isFinite = false := by
  change a.toModel.unpack.isFinite = false
  generalize a.toModel.unpack = u at *
  cases h <;> rfl

theorem isNaN_iff : a.isNaN = true ↔ a.toModel.unpack = .notANumber := by
  change a.toModel.unpack.isNaN = true ↔ _
  cases a.toModel.unpack <;> simp [UnpackedFloat.isNaN]

theorem eq_infinity (h : a.toModel.unpack = .infinity .positive) : a = Coefficient.infinity := by
  obtain ⟨⟨⟨w⟩, hvalid⟩⟩ := a
  have hw : w.toNat = 2047 * 2 ^ 52 := by
    have hlt : w.toNat < 2 ^ 64 := w.isLt
    rcases unpack_cases w h with ⟨he, hm, hu⟩ | hu | ⟨-, -, hu⟩ | ⟨-, _, hu⟩ | ⟨-, -, _, hu⟩
    · have hsign : w.toNat < 2 ^ 63 := by
        by_contra hneg
        rw [signOf, if_neg hneg] at hu
        cases hu
      unfold exponentOf at he
      unfold mantissaOf at hm
      omega
    all_goals cases hu
  obtain rfl : w = 0x7FF0000000000000#64 := BitVec.eq_of_toNat_eq hw
  rfl

theorem Excess.sub (h : Excess a.toModel.unpack) (hb : NotBelow b.toModel.unpack) :
    Excess (a - b).toModel.unpack := by
  rw [unpack_sub]
  generalize a.toModel.unpack = u at *
  generalize b.toModel.unpack = v at *
  refine Excess.pack ?_
  cases h with
  | notANumber => exact .notANumber
  | infinity => cases hb <;> first | exact .infinity | exact .notANumber

theorem Excess.div (h : Excess a.toModel.unpack) (hb : Signless b.toModel.unpack) :
    Excess (a / b).toModel.unpack := by
  rw [unpack_div]
  generalize a.toModel.unpack = u at *
  generalize b.toModel.unpack = v at *
  refine Excess.pack ?_
  cases h with
  | notANumber => exact .notANumber
  | infinity => cases hb <;> first | exact .infinity | exact .notANumber

theorem excess_div_zero (ha : NotBelow a.toModel.unpack) (hb : b.toModel.unpack = .zero .positive) :
    Excess (a / b).toModel.unpack := by
  rw [unpack_div, hb]
  generalize a.toModel.unpack = u at *
  refine Excess.pack ?_
  cases ha <;> first | exact .infinity | exact .notANumber

theorem Excess.zero_mul (h : Excess a.toModel.unpack) :
    (Float.ofNat 0 * a).toModel.unpack = .notANumber := by
  have hzero : (Float.ofNat 0).toModel.unpack = .zero .positive := rfl
  rw [unpack_mul, hzero]
  generalize a.toModel.unpack = u at *
  cases h <;> rfl

theorem mul_notANumber (h : b.toModel.unpack = .notANumber) :
    (a * b).toModel.unpack = .notANumber := by
  have hproduct : UnpackedFloat.mul Format.binary64 a.toModel.unpack .notANumber = .notANumber := by
    cases a.toModel.unpack <;> rfl
  rw [unpack_mul, h, hproduct]
  rfl

theorem add_notANumber (h : b.toModel.unpack = .notANumber) :
    (a + b).toModel.unpack = .notANumber := by
  have hsum : UnpackedFloat.add Format.binary64 a.toModel.unpack .notANumber = .notANumber := by
    cases a.toModel.unpack <;> rfl
  rw [unpack_add, h, hsum]
  rfl

end BinaryQuadratic.Coefficient.Binary64

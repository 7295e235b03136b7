import BinaryQuadratic.Proofs.Coefficient.Binary64

/-! Doubles that are not below zero. Sums, products and quotients of such are not below zero either,
whatever is rounded away. A zero may have a sign, though, and as a divisor it passes that sign on. -/

namespace BinaryQuadratic.Coefficient.Binary64

open Float.Model Float.Model.UnpackedFloat

/-- Not below zero, or not a number. -/
inductive NotBelow : UnpackedFloat → Prop
  | notANumber : NotBelow .notANumber
  | zero (s : Sign) : NotBelow (.zero s)
  | finite (m : Nat) (e : Int) (h : 0 < m) : NotBelow (.finite .positive m e h)
  | infinity : NotBelow (.infinity .positive)

/-- Not below zero and other than `-0`, or not a number. -/
inductive Signless : UnpackedFloat → Prop
  | notANumber : Signless .notANumber
  | zero : Signless (.zero .positive)
  | finite (m : Nat) (e : Int) (h : 0 < m) : Signless (.finite .positive m e h)
  | infinity : Signless (.infinity .positive)

section Unpacked

variable {u v : UnpackedFloat}

theorem notBelow_of_not_unpacked_lt (h : ¬u.lt (.zero .positive) = true) : NotBelow u := by
  cases u with
  | notANumber => exact .notANumber
  | zero s => exact .zero s
  | infinity s =>
    cases s with
    | negative => exact absurd rfl h
    | positive => exact .infinity
  | finite s m e hm =>
    cases s with
    | negative => exact absurd rfl h
    | positive => exact .finite m e hm

theorem Nonnegative.signless (h : Nonnegative u) : Signless u := by
  cases h with
  | zero => exact .zero
  | finite m e hm => exact .finite m e hm
  | infinity => exact .infinity

theorem Positive.signless (h : Positive u) : Signless u := by
  cases h with
  | finite m e hm => exact .finite m e hm
  | infinity => exact .infinity

theorem Signless.notBelow (h : Signless u) : NotBelow u := by
  cases h with
  | notANumber => exact .notANumber
  | zero => exact .zero .positive
  | finite m e hm => exact .finite m e hm
  | infinity => exact .infinity

theorem Positive.notBelow (h : Positive u) : NotBelow u := h.signless.notBelow

theorem NotBelow.signless_or_eq (h : NotBelow u) : Signless u ∨ u = .zero .negative := by
  cases h with
  | notANumber => exact .inl .notANumber
  | zero s =>
    cases s with
    | negative => exact .inr rfl
    | positive => exact .inl .zero
  | finite m e hm => exact .inl (.finite m e hm)
  | infinity => exact .inl .infinity

theorem Signless.pack (h : Signless u) : Signless (Float.Model.pack u).unpack := by
  cases h with
  | notANumber => exact .notANumber
  | zero => exact .zero
  | finite m e hm => exact (Nonnegative.finite m e hm).pack.signless
  | infinity => exact .infinity

theorem NotBelow.pack (h : NotBelow u) : NotBelow (Float.Model.pack u).unpack := by
  rcases h.signless_or_eq with h | rfl
  · exact h.pack.notBelow
  · exact .zero .negative

theorem Signless.not_lt (hu : Signless u) (hv : v.le (.zero .positive) = true) :
    ¬u.lt v = true := by
  cases v with
  | notANumber => cases hv
  | zero t => cases hu <;> exact Bool.false_ne_true
  | infinity t =>
    cases t with
    | positive => cases hv
    | negative => cases hu <;> exact Bool.false_ne_true
  | finite t m e hm =>
    cases t with
    | positive => cases hv
    | negative => cases hu <;> exact Bool.false_ne_true

end Unpacked

section Operations

variable (f : Format) {u v : UnpackedFloat}

theorem nonnegative_normalize {m : Int} (hm : 0 ≤ m) (e : Int) :
    Nonnegative (UnpackedFloat.normalize f m e .positive) := by
  unfold UnpackedFloat.normalize
  split
  · next h => exact absurd (compare_lt_iff_lt.1 h) (not_lt.2 hm)
  · exact .zero
  · exact nonnegative_round _ _ _ _

theorem NotBelow.add (hu : NotBelow u) (hv : NotBelow v) : NotBelow (UnpackedFloat.add f u v) := by
  cases hu <;> cases hv
  case finite.finite m e hm m' e' hm' =>
    have hsum : (0 : Int) ≤ (decreaseExponent m e (min e e')).1 +
        (decreaseExponent m' e' (min e e')).1 := by positivity
    exact (nonnegative_normalize f hsum _).signless.notBelow
  case zero.zero s t => cases s <;> cases t <;> exact .zero _
  all_goals first | exact .notANumber | exact .infinity | exact .finite _ _ _

theorem NotBelow.mul (hu : NotBelow u) (hv : NotBelow v) : NotBelow (UnpackedFloat.mul f u v) := by
  cases hu <;> cases hv
  case finite.finite => exact (nonnegative_round f _ _ _).signless.notBelow
  all_goals first | exact .notANumber | exact .infinity | exact .zero _

theorem NotBelow.div (hu : NotBelow u) (hv : Signless v) : NotBelow (UnpackedFloat.div f u v) := by
  cases hu <;> cases hv
  case finite.finite => exact (nonnegative_round f _ _ _).signless.notBelow
  case infinity.zero => exact .infinity
  all_goals first | exact .notANumber | exact .infinity | exact .zero _

theorem Signless.div (hu : Positive u) (hv : Signless v) : Signless (UnpackedFloat.div f u v) := by
  cases hu <;> cases hv
  case finite.finite => exact (nonnegative_round f _ _ _).signless
  all_goals first | exact .notANumber | exact .infinity | exact .zero

theorem shiftLeft_le_of_compare {m m' : Nat} {e e' : Int}
    (hu : -1074 ≤ e ∧ e ≤ 971 ∧ m < 2 ^ 53 ∧ (-1074 < e → 2 ^ 52 ≤ m))
    (hv : -1074 ≤ e' ∧ e' ≤ 971 ∧ m' < 2 ^ 53 ∧ (-1074 < e' → 2 ^ 52 ≤ m'))
    (h : (compare e e').then (compare m m') ≠ .lt) :
    m' <<< (e' - min e e').toNat ≤ m <<< (e - min e e').toNat := by
  rw [compare_exponent_then_mantissa hu hv, ne_eq, compare_lt_iff_lt, not_lt] at h
  rcases lt_trichotomy e' e with hlt | rfl | hgt
  · -- a larger exponent doubles a mantissa whose first digit is set
    have hdouble : m * 2 ^ 1 ≤ m * 2 ^ (e - e').toNat :=
      Nat.mul_le_mul_left m (Nat.pow_le_pow_right two_pos (by omega))
    rw [min_eq_right hlt.le, sub_self, Int.toNat_zero, Nat.shiftLeft_zero, Nat.shiftLeft_eq]
    omega
  · rw [min_self, sub_self, Int.toNat_zero, Nat.shiftLeft_zero, Nat.shiftLeft_zero]
    omega
  · omega

theorem signless_sub (hu : Positive u) (hv : Positive v) (hus : Stored u) (hvs : Stored v)
    (h : ¬u.lt v = true) : Signless (UnpackedFloat.sub f u v) := by
  cases hu <;> cases hv
  case finite.finite m e hm m' e' hm' =>
    have hle := shiftLeft_le_of_compare hus hvs fun hlt => h (by
      rw [UnpackedFloat.lt, UnpackedFloat.compare, hlt]
      rfl)
    have hdifference : (0 : Int) ≤ ((m <<< (e - min e e').toNat : Nat) : Int) -
        ((m' <<< (e' - min e e').toNat : Nat) : Int) := by omega
    exact (nonnegative_normalize f hdifference _).signless
  case finite.infinity => exact absurd rfl h
  case infinity.finite => exact .infinity
  case infinity.infinity => exact .notANumber

theorem NotBelow.sub (hu : NotBelow u) (hv : NotBelow v) (hus : Stored u) (hvs : Stored v)
    (h : ¬u.lt v = true) : NotBelow (UnpackedFloat.sub f u v) := by
  cases hu <;> cases hv
  case finite.finite =>
    exact (signless_sub f (.finite _ _ _) (.finite _ _ _) hus hvs h).notBelow
  case zero.zero s t => cases s <;> cases t <;> exact .zero _
  case zero.finite | zero.infinity | finite.infinity => exact absurd rfl h
  all_goals first | exact .notANumber | exact .infinity | exact .finite _ _ _

end Operations

section Doubles

variable {a b : Float}

theorem unpack_add (a b : Float) : (a + b).toModel.unpack = (Float.Model.pack
    (UnpackedFloat.add Format.binary64 a.toModel.unpack b.toModel.unpack)).unpack := rfl

theorem unpack_sub (a b : Float) : (a - b).toModel.unpack = (Float.Model.pack
    (UnpackedFloat.sub Format.binary64 a.toModel.unpack b.toModel.unpack)).unpack := rfl

theorem unpack_mul (a b : Float) : (a * b).toModel.unpack = (Float.Model.pack
    (UnpackedFloat.mul Format.binary64 a.toModel.unpack b.toModel.unpack)).unpack := rfl

theorem unpack_div (a b : Float) : (a / b).toModel.unpack = (Float.Model.pack
    (UnpackedFloat.div Format.binary64 a.toModel.unpack b.toModel.unpack)).unpack := rfl

theorem notBelow_of_not_lt_zero (h : ¬a < 0) : NotBelow a.toModel.unpack :=
  notBelow_of_not_unpacked_lt fun hlt => h (decide_eq_true hlt)

theorem NotBelow.not_lt_zero (h : NotBelow a.toModel.unpack) : ¬a < 0 := by
  have hnot : ¬a.toModel.unpack.lt (.zero .positive) = true := by
    generalize a.toModel.unpack = u at *
    cases h <;> exact Bool.false_ne_true
  exact fun hlt => hnot (of_decide_eq_true hlt)

theorem notBelow_of_not_lt (ha : a.isFinite = true) (hzero : ¬a < 0) (h : ¬b < a) :
    NotBelow b.toModel.unpack := by
  have hle : 0 ≤ a := Comparable.le_of_not_lt (isNumber_of_isFinite ha) (by decide) hzero
  exact notBelow_of_not_lt_zero fun hlt => h (Comparable.lt_of_lt_of_le hlt hle)

theorem notBelow_add (ha : NotBelow a.toModel.unpack) (hb : NotBelow b.toModel.unpack) :
    NotBelow (a + b).toModel.unpack := (ha.add Format.binary64 hb).pack

theorem notBelow_sub (ha : NotBelow a.toModel.unpack) (hb : NotBelow b.toModel.unpack)
    (h : ¬a < b) : NotBelow (a - b).toModel.unpack :=
  (ha.sub Format.binary64 hb (stored_unpack _) (stored_unpack _)
    fun hlt => h (decide_eq_true hlt)).pack

theorem notBelow_mul (ha : NotBelow a.toModel.unpack) (hb : NotBelow b.toModel.unpack) :
    NotBelow (a * b).toModel.unpack := (ha.mul Format.binary64 hb).pack

theorem notBelow_div (ha : NotBelow a.toModel.unpack) (hb : Signless b.toModel.unpack) :
    NotBelow (a / b).toModel.unpack := (ha.div Format.binary64 hb).pack

theorem signless_div (ha : 0 < a) (hb : Signless b.toModel.unpack) :
    Signless (a / b).toModel.unpack :=
  (Signless.div Format.binary64 (positive_of_lt (of_decide_eq_true ha)) hb).pack

theorem Signless.not_lt_of_le_zero (ha : Signless a.toModel.unpack) (hb : b ≤ 0) : ¬a < b :=
  fun hlt => ha.not_lt (of_decide_eq_true hb) (of_decide_eq_true hlt)

theorem eq_neg_zero (h : a.toModel.unpack = .zero .negative) : a = -0 := by
  obtain ⟨⟨⟨w⟩, hvalid⟩⟩ := a
  have hw : w.toNat = 2 ^ 63 := by
    have hlt : w.toNat < 2 ^ 64 := w.isLt
    rcases unpack_cases w h with ⟨-, -, hu⟩ | hu | ⟨he, hm, hu⟩ | ⟨-, _, hu⟩ | ⟨-, -, _, hu⟩
    · cases hu
    · cases hu
    · have hsign : ¬w.toNat < 2 ^ 63 := fun hpos => by
        rw [signOf, if_pos hpos] at hu
        cases hu
      unfold exponentOf at he
      unfold mantissaOf at hm
      omega
    · cases hu
    · cases hu
  obtain rfl : w = 0x8000000000000000#64 := BitVec.eq_of_toNat_eq hw
  rfl

theorem signless_of_ne_neg_zero (ha : NotBelow a.toModel.unpack) (hne : a ≠ -0) :
    Signless a.toModel.unpack :=
  ha.signless_or_eq.resolve_right fun h => hne (eq_neg_zero h)

end Doubles

end BinaryQuadratic.Coefficient.Binary64

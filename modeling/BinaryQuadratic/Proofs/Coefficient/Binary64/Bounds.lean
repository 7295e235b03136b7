import BinaryQuadratic.Proofs.Coefficient.Binary64.Integers

/-! Lower bounds of products and quotients of doubles. Each rounding cuts off digits after the 53rd
one, and so takes away less than one part in `2 ^ 52`, as long as the result is neither too large nor
too small for 53 digits. Too large is no obstacle to a lower bound. -/

namespace BinaryQuadratic.Coefficient.Binary64

open Float.Model Float.Model.UnpackedFloat

/-- Of a sign, with the first of 53 digits set, and at least so far from zero. -/
inductive Beyond (s : Sign) (x : ℚ) : UnpackedFloat → Prop
  | finite (m : Nat) (e : Int) (h : 0 < m) (hm : m.log2 = 52) (he : -1074 ≤ e)
      (hx : x ≤ m * 2 ^ e) : Beyond s x (.finite s m e h)
  | infinity : Beyond s x (.infinity s)

/-- What one cut may take away, as a factor. -/
def slack : ℚ := 1 + 1 / 2 ^ 52

theorem slack_pos : 0 < slack := by norm_num [slack]

section Rounding

variable {m : Nat} {e : Int} {s : Sign} {x : ℚ}

theorem cast_div_le {n : Nat} (hn : 0 < n) (h : 2 ^ 52 ≤ m / n) :
    (m : ℚ) / n ≤ slack * (m / n : Nat) := by
  have hfloor : (m : ℚ) / n ≤ (m / n : Nat) + 1 := by
    rw [div_le_iff₀ (by exact_mod_cast hn)]
    exact_mod_cast (Nat.lt_mul_of_div_lt (Nat.lt_succ_self _) hn).le
  have hlarge : (2 : ℚ) ^ 52 ≤ (m / n : Nat) := by exact_mod_cast h
  calc (m : ℚ) / n ≤ (m / n : Nat) + 1 := hfloor
    _ ≤ (m / n : Nat) + 1 / 2 ^ 52 * (m / n : Nat) := by
        rw [add_le_add_iff_left, div_mul_eq_mul_div, one_mul, le_div_iff₀ (by positivity), one_mul]
        exact hlarge
    _ = slack * (m / n : Nat) := by rw [slack, add_mul, one_mul]

theorem two_zpow_le_log2 {j : Int} (h : (2 : ℚ) ^ j ≤ m * 2 ^ e) : j ≤ m.log2 + e := by
  have hlt : (m : ℚ) < 2 ^ ((m.log2 : Int) + 1) := by
    exact_mod_cast Nat.lt_log2_self
  have hlt' : (2 : ℚ) ^ j < 2 ^ ((m.log2 : Int) + 1 + e) := by
    rw [zpow_add₀ two_ne_zero]
    exact h.trans_lt (mul_lt_mul_of_pos_right hlt (zpow_pos two_pos e))
  have := (zpow_lt_zpow_iff_right₀ one_lt_two).1 hlt'
  omega

theorem value_le_slack_mul (hm : 52 ≤ m.log2) : (m : ℚ) * 2 ^ e ≤
    slack * ((m / 2 ^ (m.log2 - 52) : Nat) * 2 ^ (e + (m.log2 - 52 : Nat))) := by
  have hne : m ≠ 0 := by
    rintro rfl
    exact absurd hm (by decide)
  have hkept : 2 ^ 52 ≤ m / 2 ^ (m.log2 - 52) := by
    rw [Nat.le_div_iff_mul_le (Nat.two_pow_pos _), ← Nat.pow_add, Nat.add_sub_cancel' hm]
    exact Nat.log2_self_le hne
  have hcut := cast_div_le (Nat.two_pow_pos _) hkept
  rw [div_le_iff₀ (by positivity), Nat.cast_pow, Nat.cast_ofNat] at hcut
  calc (m : ℚ) * 2 ^ e
      ≤ slack * (m / 2 ^ (m.log2 - 52) : Nat) * 2 ^ (m.log2 - 52) * 2 ^ e :=
        mul_le_mul_of_nonneg_right hcut (zpow_pos two_pos e).le
    _ = _ := by
        rw [zpow_add₀ two_ne_zero, zpow_natCast]
        ring

theorem beyond_roundWithAccuracy (s : Sign) (hm : 52 ≤ m.log2) (he : -1022 ≤ m.log2 + e)
    (hx : slack ^ 2 * x ≤ m * 2 ^ e) (a : Accuracy) :
    Beyond s x (roundWithAccuracy Format.binary64 s m e a) := by
  obtain ⟨hmantissa, hexponent⟩ := shiftToTargetExponent_normal hm he a
  have hlog := log2_div_two_pow (m := m) (m.log2 - 52)
  have hvalue := value_le_slack_mul (e := e) hm
  rw [← hmantissa, ← hexponent] at hvalue
  rw [← hmantissa] at hlog
  unfold roundWithAccuracy
  generalize shiftToTargetExponent Format.binary64 m e a = first at *
  rcases first with ⟨em, e₁⟩
  simp only at hexponent hvalue hlog
  -- rounding up may add a digit, which the second shift takes away
  have hrounded := mantissa_le_roundedMantissa em
  have hlog' : 52 ≤ em.roundedMantissa.log2 := by
    have hmono : em.mantissa.log2 ≤ em.roundedMantissa.log2 := by
      rw [Nat.log2_eq_log_two, Nat.log2_eq_log_two]
      exact Nat.log_mono_right hrounded
    omega
  obtain ⟨hmantissa', hexponent'⟩ := shiftToTargetExponent_normal (e := e₁) hlog'
    (by omega) .exact
  have hvalue' := value_le_slack_mul (e := e₁) hlog'
  have hdigits := log2_div_two_pow (m := em.roundedMantissa) (em.roundedMantissa.log2 - 52)
  simp only [hmantissa', hexponent']
  split
  · next hzero =>
    rw [hzero, Nat.sub_sub_self hlog'] at hdigits
    cases hdigits
  · refine .finite _ _ _ (hdigits.trans (Nat.sub_sub_self hlog')) (by omega) ?_
    have hcast : (em.mantissa : ℚ) * 2 ^ e₁ ≤ em.roundedMantissa * 2 ^ e₁ :=
      mul_le_mul_of_nonneg_right (by exact_mod_cast hrounded) (zpow_pos two_pos _).le
    refine le_of_mul_le_mul_left ?_ (pow_pos slack_pos 2)
    calc slack ^ 2 * x ≤ m * 2 ^ e := hx
      _ ≤ slack * (em.mantissa * 2 ^ e₁) := hvalue
      _ ≤ slack * (em.roundedMantissa * 2 ^ e₁) := mul_le_mul_of_nonneg_left hcast slack_pos.le
      _ ≤ slack * _ := mul_le_mul_of_nonneg_left hvalue' slack_pos.le
      _ = _ := by ring

theorem Beyond.pack {u : UnpackedFloat} (h : Beyond s x u) :
    Beyond s x (Float.Model.pack u).unpack := by
  cases h with
  | infinity => cases s <;> exact .infinity
  | finite m e h hm he hx =>
    rcases unpack_pack_normal (s := s) (h := h) hm he with hu | hu <;> rw [hu]
    · exact .finite m e h hm he hx
    · exact .infinity

end Rounding

section Order

variable {m m' : Nat} {e e' : Int}

theorem shiftLeft_mul_zpow (m k : Nat) (e : Int) :
    ((m <<< k : Nat) * 2 ^ (e - k) : ℚ) = m * 2 ^ e := by
  rw [Nat.shiftLeft_eq, Nat.cast_mul, Nat.cast_pow, Nat.cast_ofNat, mul_assoc, ← zpow_natCast,
    ← zpow_add₀ two_ne_zero, add_sub_cancel]

theorem shiftLeft_mul_zpow_of_le (m : Nat) (h : e' ≤ e) :
    ((m <<< (e - e').toNat : Nat) * 2 ^ e' : ℚ) = m * 2 ^ e := by
  have hvalue := shiftLeft_mul_zpow m (e - e').toNat e
  rwa [Int.toNat_of_nonneg (sub_nonneg.2 h), sub_sub_cancel] at hvalue

theorem value_le_of_place_le {h : 0 < m} {h' : 0 < m'} (hu : Stored (.finite .positive m e h))
    (hv : Stored (.finite .positive m' e' h'))
    (hle : place (.finite .positive m e h) ≤ place (.finite .positive m' e' h')) :
    (m : ℚ) * 2 ^ e ≤ m' * 2 ^ e' := by
  have hcompare : (compare e' e).then (compare m' m) ≠ .lt := by
    rw [compare_exponent_then_mantissa hv hu, ne_eq, compare_lt_iff_lt, not_lt]
    exact hle
  have hshift := shiftLeft_le_of_compare hv hu hcompare
  rw [← shiftLeft_mul_zpow_of_le m (min_le_right e' e),
    ← shiftLeft_mul_zpow_of_le m' (min_le_left e' e)]
  exact mul_le_mul_of_nonneg_right (by exact_mod_cast hshift) (zpow_pos two_pos _).le

theorem log2_eq_of_stored {h : 0 < m} (hu : Stored (.finite .positive m e h))
    (hvalue : (2 : ℚ) ^ (-1022 : Int) ≤ m * 2 ^ e) : m.log2 = 52 := by
  obtain ⟨he, -, hm, hfirst⟩ := hu
  have hlog := two_zpow_le_log2 hvalue
  have hlt : m.log2 < 53 := (Nat.log2_lt h.ne').2 hm
  by_cases hleast : e = -1074
  · omega
  · have hle : 52 ≤ m.log2 := (Nat.le_log2 h.ne').2 (hfirst (by omega))
    omega

theorem Beyond.of_lt {u v : UnpackedFloat} {x : ℚ} (h : Beyond .positive x u) (hu : Stored u)
    (hv : Stored v) (hx : (2 : ℚ) ^ (-1022 : Int) ≤ x) (hlt : u.lt v = true) :
    Beyond .positive x v := by
  cases h with
  | infinity =>
    cases v with
    | notANumber | zero s => cases hlt
    | infinity s | finite s m e hm => cases s <;> cases hlt
  | finite m e hm hlog he hvalue =>
    cases v with
    | notANumber | zero s => cases hlt
    | infinity s =>
      cases s with
      | negative => cases hlt
      | positive => exact .infinity
    | finite s m' e' hm' =>
      cases s with
      | negative => cases hlt
      | positive =>
        have hcompare : some (compare (place (.finite .positive m e hm))
            (place (.finite .positive m' e' hm'))) = some .lt := by
          rw [← compare_finite hu hv]
          exact beq_iff_eq.1 hlt
        have hplace := compare_lt_iff_lt.1 (Option.some.inj hcompare)
        have hle := hvalue.trans (value_le_of_place_le hu hv hplace.le)
        exact .finite _ _ _ (log2_eq_of_stored hv (hx.trans hle)) hv.1 hle

end Order

section Operations

variable {m m' : Nat} {e e' : Int} {x : ℚ}

theorem two_zpow_log2_le (h : 0 < m) : (2 : ℚ) ^ (m.log2 + e) ≤ m * 2 ^ e := by
  rw [zpow_add₀ two_ne_zero, zpow_natCast]
  refine mul_le_mul_of_nonneg_right ?_ (zpow_pos two_pos e).le
  exact_mod_cast Nat.log2_self_le h.ne'

theorem value_pos (h : 0 < m) : (0 : ℚ) < m * 2 ^ e :=
  mul_pos (by exact_mod_cast h) (zpow_pos two_pos e)

theorem log2_sub_log2 (h' : 0 < m')
    (hrange : (2 : ℚ) ^ (-1020 : Int) ≤ m * 2 ^ e / (m' * 2 ^ e')) :
    -1020 ≤ (m.log2 + e) - (m'.log2 + e') := by
  rw [le_div_iff₀ (value_pos h')] at hrange
  have hle : (2 : ℚ) ^ (-1020 + (m'.log2 + e')) ≤ m * 2 ^ e := by
    rw [zpow_add₀ two_ne_zero]
    exact (mul_le_mul_of_nonneg_left (two_zpow_log2_le h') (zpow_pos two_pos _).le).trans hrange
  have := two_zpow_le_log2 hle
  omega

theorem le_div_of_log2 {k : Nat} (h : 0 < m) (h' : 0 < m') (hk : m'.log2 + 53 ≤ m.log2 + k) :
    2 ^ 52 ≤ m * 2 ^ k / m' := by
  rw [Nat.le_div_iff_mul_le h']
  calc 2 ^ 52 * m' ≤ 2 ^ 52 * 2 ^ (m'.log2 + 1) := Nat.mul_le_mul_left _ Nat.lt_log2_self.le
    _ = 2 ^ (m'.log2 + 53) := by rw [← Nat.pow_add]; congr 1; omega
    _ ≤ 2 ^ (m.log2 + k) := Nat.pow_le_pow_right two_pos hk
    _ = 2 ^ m.log2 * 2 ^ k := Nat.pow_add _ _ _
    _ ≤ m * 2 ^ k := Nat.mul_le_mul_right _ (Nat.log2_self_le h.ne')

theorem div_eq_div_mul {k : Nat} {t : Int} (h' : 0 < m') (he : e = k + t + e') :
    (m * 2 ^ e / (m' * 2 ^ e') : ℚ) = (m * 2 ^ k : Nat) / m' * 2 ^ t := by
  have hm' : (m' : ℚ) ≠ 0 := by exact_mod_cast h'.ne'
  rw [he, zpow_add₀ two_ne_zero, zpow_add₀ two_ne_zero, zpow_natCast, Nat.cast_mul, Nat.cast_pow,
    Nat.cast_ofNat]
  field_simp

theorem divCore_normal (h : 0 < m) (h' : 0 < m')
    (hrange : (2 : ℚ) ^ (-1020 : Int) ≤ m * 2 ^ e / (m' * 2 ^ e')) :
    ∃ q t a, divCore Format.binary64 m e m' e' = (q, t, a) ∧ 52 ≤ q.log2 ∧ -1022 ≤ q.log2 + t ∧
      (m * 2 ^ e / (m' * 2 ^ e') : ℚ) ≤ slack * (q * 2 ^ t) := by
  have hlogs := log2_sub_log2 h' hrange
  have hdigits : (Format.binary64.mantissaBits : Int) = 53 := rfl
  have hleast : Format.binary64.minExponent = -1074 := rfl
  have htarget : Format.binary64.targetExponent (totalExponent m e - totalExponent m' e') =
      m.log2 + e - (m'.log2 + e') - 53 := by
    rw [Format.targetExponent, totalExponent, totalExponent, hdigits, hleast]
    omega
  obtain ⟨t, ht⟩ : ∃ t, t = min (e - e') (m.log2 + e - (m'.log2 + e') - 53) := ⟨_, rfl⟩
  obtain ⟨k, hk⟩ : ∃ k : Nat, (k : Int) = e - e' - t := ⟨(e - e' - t).toNat, by omega⟩
  have hquotient := le_div_of_log2 (k := k) h h' (by omega)
  have hvalue : (m * 2 ^ e / (m' * 2 ^ e') : ℚ) ≤ slack * ((m * 2 ^ k / m' : Nat) * 2 ^ t) := by
    have hpower : (0 : ℚ) < 2 ^ t := zpow_pos two_pos t
    have hcut := mul_le_mul_of_nonneg_right (cast_div_le h' hquotient) hpower.le
    rw [div_eq_div_mul (k := k) (t := t) h' (by omega), ← mul_assoc]
    exact hcut
  have hlog : 52 ≤ (m * 2 ^ k / m').log2 :=
    (Nat.le_log2 ((Nat.two_pow_pos 52).trans_le hquotient).ne').2 hquotient
  refine ⟨m * 2 ^ k / m', t, accuracyOfFraction (m * 2 ^ k % m') m', ?_, hlog, ?_, hvalue⟩
  · have hshift : (e - e' - t).toNat = k := by omega
    unfold divCore
    simp only [htarget, ← ht, hshift, Nat.shiftLeft_eq]
  · refine two_zpow_le_log2 (le_of_mul_le_mul_left ?_ slack_pos)
    calc slack * 2 ^ (-1022 : Int) ≤ 2 ^ (2 : Int) * 2 ^ (-1022 : Int) :=
          mul_le_mul_of_nonneg_right (by norm_num [slack]) (zpow_pos two_pos _).le
      _ = 2 ^ (-1020 : Int) := (zpow_add₀ two_ne_zero 2 (-1022)).symm
      _ ≤ _ := hrange.trans hvalue

theorem Beyond.div (s s' : Sign) (h : 0 < m) (h' : 0 < m')
    (hrange : (2 : ℚ) ^ (-1020 : Int) ≤ m * 2 ^ e / (m' * 2 ^ e'))
    (hx : slack ^ 3 * x ≤ m * 2 ^ e / (m' * 2 ^ e')) : Beyond (s / s') x
      (UnpackedFloat.div Format.binary64 (.finite s m e h) (.finite s' m' e' h')) := by
  obtain ⟨q, t, a, hcore, hlog, hleast, hvalue⟩ := divCore_normal h h' hrange
  rw [UnpackedFloat.div, hcore]
  refine beyond_roundWithAccuracy _ hlog hleast (le_of_mul_le_mul_left ?_ slack_pos) a
  calc slack * (slack ^ 2 * x) = slack ^ 3 * x := by ring
    _ ≤ slack * (q * 2 ^ t) := hx.trans hvalue

theorem Beyond.mul {s : Sign} {u : UnpackedFloat} {y : ℚ} (hu : Beyond s x u) (s' : Sign)
    (h' : 0 < m') (hrange : (2 : ℚ) ^ (-1022 : Int) ≤ x * (m' * 2 ^ e'))
    (hy : slack ^ 2 * y ≤ x * (m' * 2 ^ e')) :
    Beyond (s * s') y (UnpackedFloat.mul Format.binary64 u (.finite s' m' e' h')) := by
  cases hu with
  | infinity => exact .infinity
  | finite m e h hm he hx =>
    have hvalue : x * (m' * 2 ^ e') ≤ (m * m' : Nat) * 2 ^ (e + e') := by
      rw [Nat.cast_mul, zpow_add₀ two_ne_zero, mul_mul_mul_comm]
      exact mul_le_mul_of_nonneg_right hx (value_pos h').le
    have hlog : 52 ≤ (m * m').log2 := by
      rw [← hm, Nat.log2_eq_log_two, Nat.log2_eq_log_two]
      exact Nat.log_mono_right (Nat.le_mul_of_pos_right m h')
    exact beyond_roundWithAccuracy _ hlog (two_zpow_le_log2 (hrange.trans hvalue))
      (hy.trans hvalue) .exact

end Operations

section Doubles

variable {a b c : Float} {m : Nat} {e : Int} {h : 0 < m} {x : ℚ}

theorem Beyond.neg {u : UnpackedFloat} (hu : Beyond .positive x u) : Beyond .negative x u.neg := by
  cases hu with
  | finite m e h hm he hx => exact .finite m e h hm he hx
  | infinity => exact .infinity

theorem unpack_pack_of_stored {s : Sign} (hu : Stored (.finite s m e h)) :
    (Float.Model.pack (.finite s m e h)).unpack = .finite s m e h := by
  obtain ⟨he, he', hm, hfirst⟩ := hu
  have hlog : m.log2 < 53 := (Nat.log2_lt h.ne').2 hm
  by_cases hdigit : m.log2 = 52
  · exact unpack_pack_of_le hdigit he he'
  · -- without the first digit the mantissa is stored as it is
    have hlt : m < 2 ^ 52 := (Nat.log2_lt h.ne').1 (by omega)
    obtain rfl : e = -1074 := by
      by_contra hne
      exact hlt.not_ge (hfirst (lt_of_le_of_ne he (Ne.symm hne)))
    have hmantissa : (BitVec.ofNat 52 m).toNat = m := by
      rw [BitVec.toNat_ofNat, Nat.mod_eq_of_lt hlt]
    have hne : BitVec.ofNat 52 m ≠ 0#52 := fun hzero =>
      h.ne' (hmantissa.symm.trans (congrArg BitVec.toNat hzero))
    have hdigits : ¬m.log2 + 1 = Format.binary64.mantissaBits := fun heq => hdigit (by
      have : Format.binary64.mantissaBits = 53 := rfl
      omega)
    change UnpackedFloat.unpack Format.binary64 (UnpackedFloat.pack Format.binary64 _) = _
    rw [UnpackedFloat.pack, if_neg (by decide), if_neg hdigits]
    simp only [UnpackedFloat.unpack, unpackMantissa_packComponents,
      unpackExponent_packComponents, ofBitVec_unpackSign_packComponents]
    rw [if_neg (by decide), if_pos trivial, dif_neg hne]
    simp only [hmantissa]
    rfl

theorem finite_le_iff {s s' : Sign} {m' : Nat} {e' : Int} {h' : 0 < m'}
    (hu : Stored (.finite s m e h)) (hv : Stored (.finite s' m' e' h')) :
    (UnpackedFloat.finite s m e h).le (.finite s' m' e' h') = true ↔
      place (.finite s m e h) ≤ place (.finite s' m' e' h') := by
  rw [UnpackedFloat.le, compare_finite hu hv, Option.any_some, Int.isLE_compare]

theorem place_le_of_value_lt {m' : Nat} {e' : Int} {h' : 0 < m'}
    (hu : Stored (.finite .positive m e h)) (hv : Stored (.finite .positive m' e' h'))
    (hlt : (m * 2 ^ e : ℚ) < m' * 2 ^ e') :
    place (.finite .positive m e h) ≤ place (.finite .positive m' e' h') := by
  by_contra hnot
  exact hlt.not_ge (value_le_of_place_le hv hu (not_le.1 hnot).le)

theorem le_of_beyond (hc : c.toModel.unpack = .finite .positive m e h)
    (ha : Beyond .positive x a.toModel.unpack) (hx : m * 2 ^ e < x) : c ≤ a := by
  have hle : c.toModel.unpack.le a.toModel.unpack = true := by
    have hcs : Stored c.toModel.unpack := stored_unpack _
    have has : Stored a.toModel.unpack := stored_unpack _
    rw [hc] at hcs ⊢
    generalize a.toModel.unpack = u at *
    cases ha with
    | infinity => rfl
    | finite m' e' h' hm he hx' =>
      exact (finite_le_iff hcs has).2 (place_le_of_value_lt hcs has (hx.trans_le hx'))
  exact decide_eq_true hle

theorem le_neg_of_beyond (hc : c.toModel.unpack = .finite .negative m e h)
    (ha : Beyond .negative x a.toModel.unpack) (hx : m * 2 ^ e < x) : a ≤ c := by
  have hle : a.toModel.unpack.le c.toModel.unpack = true := by
    have hcs : Stored c.toModel.unpack := stored_unpack _
    have has : Stored a.toModel.unpack := stored_unpack _
    rw [hc] at hcs ⊢
    generalize a.toModel.unpack = u at *
    cases ha with
    | infinity => rfl
    | finite m' e' h' hm he hx' =>
      have hplace : place (.finite .positive m e h) ≤ place (.finite .positive m' e' h') :=
        place_le_of_value_lt hcs has (hx.trans_le hx')
      exact (finite_le_iff has hcs).2 (neg_le_neg hplace)
  exact decide_eq_true hle

end Doubles

end BinaryQuadratic.Coefficient.Binary64

import BinaryQuadratic.Proofs.Coefficient.Binary64.Signs

/-! Doubles of natural numbers. Rounding to 53 digits keeps the first digit at its place or moves it
up, so that no number from one on is rounded to less than one. -/

namespace BinaryQuadratic.Coefficient.Binary64

open Float.Model Float.Model.UnpackedFloat

section Rounding

theorem mantissa_shiftRight (em : ExtendedMantissa) (k : Nat) :
    (em >>> k).mantissa = em.mantissa / 2 ^ k := by
  induction k with
  | zero => exact (Nat.div_one _).symm
  | succ k ih =>
    change (em >>> k).mantissa / 2 = _
    rw [ih, Nat.div_div_eq_div_mul, Nat.pow_succ]

theorem mantissa_ofMantissaAndAccuracy (m : Nat) (a : Accuracy) :
    (ExtendedMantissa.ofMantissaAndAccuracy m a).mantissa = m := by
  cases a with
  | exact => rfl
  | inexact o => cases o <;> rfl

theorem mantissa_le_roundedMantissa (em : ExtendedMantissa) :
    em.mantissa ≤ em.roundedMantissa := by
  rcases em with ⟨m, _ | _, _ | _⟩
  · exact le_refl m
  · exact le_refl m
  · exact Nat.le_add_right m _
  · exact Nat.le_succ m

variable {m : Nat} {e : Int}

theorem log2_div_two_pow (k : Nat) : (m / 2 ^ k).log2 = m.log2 - k := by
  rw [Nat.log2_eq_log_two, Nat.log_div_base_pow, ← Nat.log2_eq_log_two]

theorem targetExponent_normal (he : -1022 ≤ m.log2 + e) :
    Format.binary64.targetExponent (totalExponent m e) = m.log2 + e - 52 := by
  have hdigits : (Format.binary64.mantissaBits : Int) = 53 := rfl
  have hleast : Format.binary64.minExponent = -1074 := rfl
  rw [Format.targetExponent, totalExponent, hdigits, hleast]
  omega

theorem shiftToTargetExponent_normal (hm : 52 ≤ m.log2) (he : -1022 ≤ m.log2 + e) (a : Accuracy) :
    (shiftToTargetExponent Format.binary64 m e a).1.mantissa = m / 2 ^ (m.log2 - 52) ∧
      (shiftToTargetExponent Format.binary64 m e a).2 = e + (m.log2 - 52 : Nat) := by
  have hshift : (Format.binary64.targetExponent (totalExponent m e) - e).toNat = m.log2 - 52 := by
    rw [targetExponent_normal he]
    omega
  unfold shiftToTargetExponent shiftToExponent
  simp only [hshift, mantissa_shiftRight, mantissa_ofMantissaAndAccuracy, and_self]

theorem shiftToTargetExponent_large (hm : 52 ≤ m.log2) (he : 0 ≤ m.log2 + e) (a : Accuracy) :
    (shiftToTargetExponent Format.binary64 m e a).1.mantissa.log2 = 52 ∧
      -52 ≤ (shiftToTargetExponent Format.binary64 m e a).2 := by
  obtain ⟨hmantissa, hexponent⟩ := shiftToTargetExponent_normal (e := e) hm (by omega) a
  rw [hmantissa, hexponent, log2_div_two_pow]
  omega

theorem unpack_packComponents {s : Sign} {w : BitVec 11} (y : BitVec 52) (hw : 1 ≤ w.toNat)
    (hw' : w.toNat < 2047) (h : 0 < 2 ^ 52 + y.toNat) :
    UnpackedFloat.unpack Format.binary64 (packComponents Format.binary64 s w y) =
      .finite s (2 ^ 52 + y.toNat) (w.toNat - 1075) h := by
  have hfull : w ≠ -1#11 := by
    rintro rfl
    exact absurd hw' (by decide)
  have hempty : w ≠ 0#11 := by
    rintro rfl
    exact absurd hw (by decide)
  have hbias : (Format.binary64.exponentBias : Int) = 1023 := rfl
  simp only [UnpackedFloat.unpack, unpackMantissa_packComponents, unpackExponent_packComponents,
    ofBitVec_unpackSign_packComponents, if_neg hfull, if_neg hempty, hbias, toNat_one_append]
  rfl

theorem full_exponent_iff : 2 ^ Format.binary64.exponentBits ≤ (e + Format.binary64.exponentBias +
    Format.binary64.mantissaBitsWithoutImplicit).toNat + 1 ↔ 971 < e := by
  change 2 ^ 11 ≤ (e + 1023 + 52).toNat + 1 ↔ 971 < e
  omega

theorem unpack_pack_of_lt {s : Sign} {h : 0 < m} (he : 971 < e) :
    (Float.Model.pack (.finite s m e h)).unpack = .infinity s := by
  change UnpackedFloat.unpack Format.binary64 (UnpackedFloat.pack Format.binary64 _) = _
  rw [UnpackedFloat.pack, if_pos (full_exponent_iff.2 he)]
  cases s <;> rfl

theorem unpack_pack_of_le {s : Sign} {h : 0 < m} (hm : m.log2 = 52) (he : -1074 ≤ e)
    (he' : e ≤ 971) : (Float.Model.pack (.finite s m e h)).unpack = .finite s m e h := by
  change UnpackedFloat.unpack Format.binary64 (UnpackedFloat.pack Format.binary64 _) = _
  have hbiased : (BitVec.ofNat 11 (e + 1023 + 52).toNat).toNat = (e + 1075).toNat := by
    rw [BitVec.toNat_ofNat]
    omega
  have hmantissa : 2 ^ 52 + (BitVec.ofNat 52 m).toNat = m := by
    have := (Nat.log2_eq_iff h.ne').1 hm
    rw [BitVec.toNat_ofNat]
    omega
  have hunpack := unpack_packComponents (s := s) (w := BitVec.ofNat 11 (e + 1023 + 52).toNat)
    (BitVec.ofNat 52 m) (by omega) (by omega) (hmantissa.symm ▸ h)
  rw [UnpackedFloat.pack, if_neg (mt full_exponent_iff.1 he'.not_gt),
    if_pos (by rw [hm]; rfl)]
  refine hunpack.trans ?_
  simp only [hmantissa, hbiased, UnpackedFloat.finite.injEq, true_and]
  omega

theorem unpack_pack_normal {s : Sign} {h : 0 < m} (hm : m.log2 = 52) (he : -1074 ≤ e) :
    (Float.Model.pack (.finite s m e h)).unpack = .finite s m e h ∨
      (Float.Model.pack (.finite s m e h)).unpack = .infinity s :=
  (le_or_gt e 971).imp (unpack_pack_of_le hm he) unpack_pack_of_lt

/-- From one on, with the first of 53 digits set. -/
inductive Large : UnpackedFloat → Prop
  | finite (m : Nat) (e : Int) (h : 0 < m) (hm : m.log2 = 52) (he : -52 ≤ e) :
    Large (.finite .positive m e h)
  | infinity : Large (.infinity .positive)

theorem large_roundWithAccuracy (hm : 52 ≤ m.log2) (he : 0 ≤ m.log2 + e) (a : Accuracy) :
    Large (roundWithAccuracy Format.binary64 .positive m e a) := by
  obtain ⟨hlog, hexponent⟩ := shiftToTargetExponent_large hm he a
  unfold roundWithAccuracy
  generalize shiftToTargetExponent Format.binary64 m e a = first at *
  rcases first with ⟨em, e₁⟩
  -- rounding up may add a digit, which the second shift takes away
  have hrounded : 52 ≤ em.roundedMantissa.log2 := by
    rw [← hlog, Nat.log2_eq_log_two, Nat.log2_eq_log_two]
    exact Nat.log_mono_right (mantissa_le_roundedMantissa em)
  obtain ⟨hlog', hexponent'⟩ := shiftToTargetExponent_large (e := e₁) hrounded
    (by simp only at hexponent; omega) .exact
  simp only
  split
  · next hzero =>
    rw [hzero] at hlog'
    cases hlog'
  · exact .finite _ _ _ hlog' hexponent'

end Rounding

variable {u v : UnpackedFloat}

theorem Large.positive (h : Large u) : Positive u := by
  cases h with
  | finite m e h hm he => exact .finite m e h
  | infinity => exact .infinity

theorem Large.pack (h : Large u) : Large (Float.Model.pack u).unpack := by
  cases h with
  | infinity => exact .infinity
  | finite m e h hm he =>
    rcases unpack_pack_normal (s := .positive) (e := e) (h := h) hm (by omega) with hu | hu <;> rw [hu]
    · exact .finite m e h hm he
    · exact .infinity

theorem Large.mul (hu : Large u) (hv : Large v) : Large (UnpackedFloat.mul Format.binary64 u v) := by
  cases hu <;> cases hv
  case finite.finite m e h hm he m' e' h' hm' he' =>
    have hproduct : 104 ≤ (m * m').log2 := by
      rw [Nat.le_log2 (Nat.mul_pos h h').ne']
      calc 2 ^ 104 = 2 ^ m.log2 * 2 ^ m'.log2 := by rw [hm, hm', ← Nat.pow_add]
        _ ≤ m * m' := Nat.mul_le_mul (Nat.log2_self_le h.ne') (Nat.log2_self_le h'.ne')
    exact large_roundWithAccuracy (by omega) (by omega) _
  all_goals exact .infinity

section Naturals

variable {n : Nat}

theorem log2_shiftLeft (hn : 0 < n) (k : Nat) : (n <<< k).log2 = n.log2 + k := by
  induction k with
  | zero => rfl
  | succ k ih =>
    have hne : n <<< k ≠ 0 := by
      rw [Nat.shiftLeft_eq]
      exact (Nat.mul_pos hn (Nat.two_pow_pos k)).ne'
    rw [Nat.shiftLeft_succ, Nat.log2_two_mul hne, ih, Nat.add_assoc]

theorem large_round (hn : 0 < n) : Large (UnpackedFloat.round Format.binary64 .positive n 0) := by
  unfold UnpackedFloat.round decreaseExponent
  simp only [targetExponent_normal (m := n) (e := 0) (by omega)]
  refine large_roundWithAccuracy ?_ ?_ _ <;> rw [log2_shiftLeft hn] <;> omega

theorem ofUInt64_eq_round {w : UInt64} (hw : 0 < w.toNat) :
    UnpackedFloat.ofUInt64 Format.binary64 w =
      UnpackedFloat.round Format.binary64 .positive w.toNat 0 := by
  have hpos : compare (w.toNat : Int) 0 = .gt := compare_gt_iff_gt.2 (by exact_mod_cast hw)
  unfold UnpackedFloat.ofUInt64 UnpackedFloat.ofNat UnpackedFloat.ofInt UnpackedFloat.normalize
  rw [hpos]
  rfl

theorem ofScientific_eq_round (hn : 0 < n) : UnpackedFloat.ofScientific Format.binary64 n 0 =
    roundWithAccuracy Format.binary64 .positive (n <<< 53 * 10 ^ 0) (-53 + 0) .exact := by
  have hbits : (0 : Int) ≤ 2 ^ Format.binary64.exponentBits := by decide
  unfold UnpackedFloat.ofScientific
  rw [dif_neg hn.ne', if_neg (by decide), if_neg (by omega), if_pos (by decide)]
  rfl

theorem large_toFloat {w : UInt64} (hw : 0 < w.toNat) : Large w.toFloat.toModel.unpack := by
  change Large (Float.Model.pack (UnpackedFloat.ofUInt64 Format.binary64 w)).unpack
  rw [ofUInt64_eq_round hw]
  exact (large_round hw).pack

theorem large_ofNat (hn : 0 < n) : Large (Float.ofNat n).toModel.unpack := by
  change Large (Float.ofScientific n false 0).toModel.unpack
  rw [Float.ofScientific]
  split
  · next hsmall =>
    have hw : n.toUInt64.toNat = n := Nat.mod_eq_of_lt (by omega)
    have hone : (Float.ofBits 0x3FF0000000000000).toModel.unpack =
        .finite .positive (2 ^ 52) (-52) (by decide) := rfl
    have hlarge : Large (Float.ofBits 0x3FF0000000000000).toModel.unpack := by
      rw [hone]
      exact .finite _ _ _ (by decide) (le_refl _)
    exact ((large_toFloat (hw.symm ▸ hn)).mul hlarge).pack
  · change Large (Float.Model.pack (UnpackedFloat.ofScientific Format.binary64 n 0)).unpack
    rw [ofScientific_eq_round hn]
    refine (large_roundWithAccuracy ?_ ?_ _).pack <;>
      rw [pow_zero, mul_one, log2_shiftLeft hn] <;> omega

theorem Large.not_lt_one (h : Large u) : ¬u.lt (Float.ofNat 1).toModel.unpack = true := by
  have hone : (Float.ofNat 1).toModel.unpack = .finite .positive (2 ^ 52) (-52) (by decide) := rfl
  rw [hone]
  cases h with
  | infinity => exact Bool.false_ne_true
  | finite m e h hm he =>
    have hle : 2 ^ 52 ≤ m := hm ▸ Nat.log2_self_le h.ne'
    have hcompare : (compare e (-52)).then (compare m (2 ^ 52)) ≠ .lt := by
      rcases he.lt_or_eq with hlt | rfl
      · rw [compare_gt_iff_gt.2 hlt]
        exact nofun
      · rw [compare_eq_iff_eq.2 rfl]
        exact fun hlt => absurd (compare_lt_iff_lt.1 hlt) (not_lt.2 hle)
    exact fun hlt => hcompare (Option.some.inj (beq_iff_eq.1 hlt))

theorem signless_ofNat_sub_one (hn : 0 < n) :
    Signless (Float.ofNat n - Float.ofNat 1).toModel.unpack := by
  have hlarge := large_ofNat hn
  exact (signless_sub Format.binary64 hlarge.positive (large_ofNat one_pos).positive
    (stored_unpack _) (stored_unpack _) hlarge.not_lt_one).pack

theorem notBelow_ofNat (n : Nat) : NotBelow (Float.ofNat n).toModel.unpack := by
  rcases Nat.eq_zero_or_pos n with rfl | hn
  · exact .zero .positive
  · exact (large_ofNat hn).positive.notBelow

end Naturals

end BinaryQuadratic.Coefficient.Binary64

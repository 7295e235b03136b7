import BinaryQuadratic.Proofs.Coefficient.Binary64.Overflow
import BinaryQuadratic.Proofs.Coefficient.Binary64.Values

/-! Exponentials and logarithms of doubles. How many of their digits are right is left open, but for
the first twenty. That much is met by the digits of the real functions. -/

namespace BinaryQuadratic.Coefficient.Binary64

/-- What is asked of the exponential and the logarithm, which the arithmetic of doubles does not
fix: they keep to the values that stand for no number and for too large a number, and neither is off
by more than a small part where its result is finite. -/
structure Accurate (exp log : Float → Float) : Prop where
  not_exp_lt_zero : ∀ a, ¬exp a < 0
  isNaN_exp : ∀ a, a.isNaN = true → (exp a).isNaN = true
  isNaN_log : ∀ a, a.isNaN = true → (log a).isNaN = true
  log_infinity : log infinity = infinity
  exists_exp : ∀ a x, HasValue a x → Real.exp x ≤ 2 ^ 1022 →
    ∃ y, HasValue (exp a) y ∧ |y - Real.exp x| ≤ Real.exp x / 2 ^ 20
  exists_log : ∀ a x, HasValue a x → 1 ≤ x →
    ∃ y, HasValue (log a) y ∧ |y - Real.log x| ≤ (1 + Real.log x) / 2 ^ 20

variable {exp log : Float → Float}

theorem Accurate.excess_log {a : Float} (h : Accurate exp log) (ha : Excess a.toModel.unpack) :
    Excess (log a).toModel.unpack := by
  generalize hu : a.toModel.unpack = u at ha
  cases ha with
  | notANumber =>
    rw [isNaN_iff.1 (h.isNaN_log a (isNaN_iff.2 hu))]
    exact .notANumber
  | infinity =>
    rw [eq_infinity hu, h.log_infinity]
    exact .infinity

theorem log_le_of_le_two_pow {x : ℚ} {k : Nat} (hx : 1 ≤ x) (h : x ≤ 2 ^ k) : Real.log x ≤ k := by
  have hpos : (0 : ℝ) < x := by exact_mod_cast zero_lt_one.trans_le hx
  have hle : (x : ℝ) ≤ 2 ^ k := by exact_mod_cast h
  calc Real.log x ≤ Real.log (2 ^ k) := Real.log_le_log hpos hle
    _ = k * Real.log 2 := Real.log_pow _ _
    _ ≤ k := mul_le_of_le_one_right k.cast_nonneg (by linarith [Real.log_two_lt_d9])

theorem Accurate.exists_log_le (h : Accurate exp log) {a : Float} {x : ℚ} (ha : HasValue a x)
    (hone : 1 ≤ x) (hroom : x ≤ 2 ^ 1020) :
    ∃ y, HasValue (log a) y ∧ (y : ℝ) ≤ Real.log x + 1 / 2 ^ 9 ∧ y ≤ 2 ^ 10 := by
  obtain ⟨y, hvalue, hy⟩ := h.exists_log a x ha hone
  have hlog : Real.log x ≤ 1020 := by exact_mod_cast log_le_of_le_two_pow hone hroom
  have hy := (abs_sub_le_iff.1 hy).1
  have hle : (y : ℝ) ≤ 2 ^ 10 := by
    norm_num at hy ⊢
    linarith
  refine ⟨y, hvalue, ?_, by exact_mod_cast hle⟩
  norm_num at hy ⊢
  linarith

theorem Accurate.exists_exp_le (h : Accurate exp log) {a : Float} {x y : ℚ} (ha : HasValue a x)
    (hpos : 0 < y) (hroom : y ≤ 2 ^ 1020) (hle : (x : ℝ) ≤ Real.log (2 * y)) :
    ∃ z, HasValue (exp a) z ∧ z ≤ 4 * y := by
  have hpos : (0 : ℝ) < y := by exact_mod_cast hpos
  have hexp : Real.exp x ≤ 2 * y := by
    rw [← Real.exp_log (mul_pos two_pos hpos)]
    exact Real.exp_le_exp.2 hle
  have hroom : Real.exp x ≤ 2 ^ 1022 := by
    have hy : (y : ℝ) ≤ 2 ^ 1020 := by exact_mod_cast hroom
    calc Real.exp x ≤ 2 * 2 ^ 1020 := hexp.trans (mul_le_mul_of_nonneg_left hy two_pos.le)
      _ = 2 ^ 1021 := (pow_succ' _ _).symm
      _ ≤ 2 ^ 1022 := pow_le_pow_right₀ one_le_two (by norm_num)
  obtain ⟨z, hvalue, hz⟩ := h.exists_exp a x ha hroom
  have hz := (abs_sub_le_iff.1 hz).1
  have hcast : (z : ℝ) ≤ 4 * y := by
    norm_num at hz
    linarith
  exact ⟨z, hvalue, by exact_mod_cast hcast⟩

theorem Accurate.exists_log_two_hundred (h : Accurate exp log) : ∃ x y,
    HasValue (log (Float.ofNat 2)) x ∧ HasValue (log (Float.ofNat 100)) y ∧ 1 / 2 ≤ x ∧ x ≤ 1 ∧
      4 ≤ y ∧ y ≤ 8 := by
  have htwo := Real.log_two_gt_d9
  have htwo' := Real.log_two_lt_d9
  have hbelow : 6 * Real.log 2 ≤ Real.log 100 := by
    rw [show (6 : ℝ) = (6 : Nat) by norm_num, ← Real.log_pow]
    exact Real.log_le_log (by norm_num) (by norm_num)
  have habove : Real.log 100 ≤ 7 * Real.log 2 := by
    rw [show (7 : ℝ) = (7 : Nat) by norm_num, ← Real.log_pow]
    exact Real.log_le_log (by norm_num) (by norm_num)
  obtain ⟨x, hx, hxlog⟩ := h.exists_log _ _ (hasValue_ofNat (n := 2) (by norm_num)) (by norm_num)
  obtain ⟨y, hy, hylog⟩ :=
    h.exists_log _ _ (hasValue_ofNat (n := 100) (by norm_num)) (by norm_num)
  obtain ⟨hx₁, hx₂⟩ := abs_sub_le_iff.1 hxlog
  obtain ⟨hy₁, hy₂⟩ := abs_sub_le_iff.1 hylog
  have hreal : (1 / 2 : ℝ) ≤ x ∧ (x : ℝ) ≤ 1 ∧ (4 : ℝ) ≤ y ∧ (y : ℝ) ≤ 8 := by
    norm_num at hx₁ hx₂ hy₁ hy₂ htwo htwo'
    refine ⟨?_, ?_, ?_, ?_⟩ <;> linarith
  refine ⟨x, y, hx, hy, ?_, ?_, ?_, ?_⟩
  · refine (Rat.cast_le (K := ℝ)).1 ?_
    push_cast
    exact hreal.1
  · exact_mod_cast hreal.2.1
  · exact_mod_cast hreal.2.2.1
  · exact_mod_cast hreal.2.2.2

/-- Twenty digits after the first one of a bound, of a number up to that bound. -/
noncomputable def twentyDigits (r bound : ℝ) : Float :=
  let n := Nat.log 2 ⌊bound⌋₊
  Float.ofNat ⌊r / (2 ^ n : Nat) * (2 ^ 20 : Nat)⌋₊ / Float.ofNat (2 ^ 20) * Float.ofNat (2 ^ n)

theorem notBelow_twentyDigits (r bound : ℝ) :
    NotBelow (twentyDigits r bound).toModel.unpack :=
  notBelow_mul (notBelow_div (notBelow_ofNat _) (large_ofNat (by norm_num)).positive.signless)
    (notBelow_ofNat _)

theorem hasValue_of_digits {m k : Nat} (hm : m ≤ 2 ^ 21) (hk : k ≤ 1022) :
    HasValue (Float.ofNat m / Float.ofNat (2 ^ 20) * Float.ofNat (2 ^ k)) (m / 2 ^ 20 * 2 ^ k) := by
  have hdigits : m < 2 ^ 53 := hm.trans_lt (by norm_num)
  have hm' : (m / 2 ^ 20 : ℚ) ≤ 2 ^ 1 := by
    rw [div_le_iff₀ (pow_pos two_pos 20), ← pow_add]
    exact_mod_cast hm
  have hquotient : HasValue (Float.ofNat m / Float.ofNat (2 ^ 20)) (m / 2 ^ 20) := by
    have hrounds := (hasValue_ofNat hdigits).div (hasValue_two_pow (k := 20) (by norm_num))
      (pow_pos two_pos 20)
    refine hrounds.hasValue_of_grid ⟨m, -20, hdigits, by norm_num, ?_⟩
      (hm'.trans_lt (pow_lt_pow_right₀ one_lt_two (by norm_num)))
    rw [div_eq_mul_inv, zpow_neg]
    norm_num
  have hrounds := hquotient.mul (hasValue_two_pow (k := k) (by omega))
  refine hrounds.hasValue_of_grid ⟨m, k - 20, hdigits, by omega, ?_⟩ ?_
  · rw [zpow_sub₀ two_ne_zero, zpow_natCast, div_mul_eq_mul_div, mul_div_assoc]
    rfl
  · calc (m / 2 ^ 20 * 2 ^ k : ℚ) ≤ 2 ^ 1 * 2 ^ k :=
          mul_le_mul_of_nonneg_right hm' (pow_pos two_pos k).le
      _ = 2 ^ (1 + k) := (pow_add _ _ _).symm
      _ < 2 ^ 1024 := pow_lt_pow_right₀ one_lt_two (by omega)

theorem two_pow_log_floor_le {r : ℝ} (h : 1 ≤ r) :
    2 ^ Nat.log 2 ⌊r⌋₊ ≤ r ∧ r < 2 ^ (Nat.log 2 ⌊r⌋₊ + 1) := by
  have hnonneg : 0 ≤ r := zero_le_one.trans h
  have hle : 2 ^ Nat.log 2 ⌊r⌋₊ ≤ ⌊r⌋₊ := Nat.pow_log_le_self 2 (Nat.floor_pos.2 h).ne'
  have hlt : ⌊r⌋₊ < 2 ^ (Nat.log 2 ⌊r⌋₊ + 1) := Nat.lt_pow_succ_log_self one_lt_two _
  refine ⟨le_trans ?_ (Nat.floor_le hnonneg), ?_⟩
  · exact_mod_cast hle
  · exact_mod_cast (Nat.floor_lt hnonneg).1 hlt

theorem exists_hasValue_twentyDigits {r bound : ℝ} (hr : 0 ≤ r) (hle : r ≤ bound)
    (hone : 1 ≤ bound) (hroom : bound ≤ 2 ^ 1022) :
    ∃ y, HasValue (twentyDigits r bound) y ∧ |y - r| ≤ bound / 2 ^ 20 := by
  obtain ⟨k, hk⟩ : ∃ k, k = Nat.log 2 ⌊bound⌋₊ := ⟨_, rfl⟩
  have hpower : (0 : ℝ) < 2 ^ k := by positivity
  obtain ⟨hfirst, hlast⟩ := two_pow_log_floor_le hone
  rw [← hk] at hfirst hlast
  have hplace : k ≤ 1022 := (pow_le_pow_iff_right₀ one_lt_two).1 (hfirst.trans hroom)
  obtain ⟨t, ht⟩ : ∃ t, t = r / 2 ^ k * 2 ^ 20 := ⟨_, rfl⟩
  have htnonneg : 0 ≤ t := ht ▸ by positivity
  have hvalue : r = t / 2 ^ 20 * 2 ^ k := by
    rw [ht, mul_div_cancel_right₀ _ (by positivity), div_mul_cancel₀ _ hpower.ne']
  have hbelow := Nat.floor_le htnonneg
  have habove := (Nat.lt_floor_add_one t).le
  have hdigits : ⌊t⌋₊ ≤ 2 ^ 21 := by
    refine Nat.floor_le_of_le ?_
    have htwo : r / 2 ^ k ≤ 2 := by
      rw [div_le_iff₀ hpower, ← pow_succ']
      exact hle.trans hlast.le
    rw [ht]
    norm_num
    linarith
  have hholds := hasValue_of_digits hdigits hplace
  refine ⟨⌊t⌋₊ / 2 ^ 20 * 2 ^ k, ?_, ?_⟩
  · have hscaled : r / (2 ^ k : Nat) * (2 ^ 20 : Nat) = t := by
      rw [ht, Nat.cast_pow, Nat.cast_pow, Nat.cast_ofNat]
    rw [twentyDigits, ← hk, hscaled]
    exact hholds
  · push_cast
    rw [hvalue, ← sub_mul, ← sub_div, abs_mul, abs_of_pos hpower, abs_div, abs_sub_comm,
      abs_of_nonneg (sub_nonneg.2 hbelow), abs_of_pos (by positivity : (0 : ℝ) < 2 ^ 20),
      div_mul_eq_mul_div]
    refine div_le_div_of_nonneg_right ?_ (by positivity)
    calc (t - ⌊t⌋₊) * 2 ^ k ≤ 1 * 2 ^ k :=
          mul_le_mul_of_nonneg_right (by linarith) hpower.le
      _ ≤ bound := (one_mul _).trans_le hfirst

open Classical in
noncomputable def exponential (a : Float) : Float :=
  if h : ∃ x, HasValue a x then twentyDigits (Real.exp h.choose) (Real.exp h.choose)
  else if a < 0 then 0 else a

open Classical in
noncomputable def logarithm (a : Float) : Float :=
  if h : ∃ x, HasValue a x ∧ 1 ≤ x then
    twentyDigits (Real.log h.choose) (1 + Real.log h.choose)
  else a

theorem accurate_exponential_logarithm : Accurate exponential logarithm where
  not_exp_lt_zero a := by
    unfold exponential
    split
    · exact (notBelow_twentyDigits _ _).not_lt_zero
    · split
      · decide
      · assumption
  isNaN_exp a ha := by
    have hnone : ¬∃ x, HasValue a x := by
      rintro ⟨x, hx⟩
      rw [HasValue, isNaN_iff.1 ha] at hx
      cases hx
    have hnot : ¬a < 0 := NotBelow.not_lt_zero (isNaN_iff.1 ha ▸ .notANumber)
    rwa [exponential, dif_neg hnone, if_neg hnot]
  isNaN_log a ha := by
    have hnone : ¬∃ x, HasValue a x ∧ 1 ≤ x := by
      rintro ⟨x, hx, -⟩
      rw [HasValue, isNaN_iff.1 ha] at hx
      cases hx
    rwa [logarithm, dif_neg hnone]
  log_infinity := by
    rw [logarithm, dif_neg]
    rintro ⟨x, hx, -⟩
    cases hx.isFinite
  exists_exp a x hx hroom := by
    have hvalue : ∃ x, HasValue a x := ⟨x, hx⟩
    have hone : 1 ≤ Real.exp x := Real.one_le_exp (by exact_mod_cast hx.nonneg)
    rw [exponential, dif_pos hvalue, hvalue.choose_spec.unique hx]
    exact exists_hasValue_twentyDigits (Real.exp_pos _).le le_rfl hone hroom
  exists_log a x hx hone := by
    have hvalue : ∃ x, HasValue a x ∧ 1 ≤ x := ⟨x, hx, hone⟩
    have hlog : 0 ≤ Real.log x := Real.log_nonneg (by exact_mod_cast hone)
    rw [logarithm, dif_pos hvalue, hvalue.choose_spec.1.unique hx]
    refine exists_hasValue_twentyDigits hlog (by linarith) (by linarith) ?_
    calc 1 + Real.log x ≤ 1 + (1024 : Nat) := by
          linarith [log_le_of_le_two_pow hone hx.lt.le]
      _ ≤ 2 ^ 11 := by norm_num
      _ ≤ 2 ^ 1022 := pow_le_pow_right₀ one_le_two (by norm_num)

end BinaryQuadratic.Coefficient.Binary64

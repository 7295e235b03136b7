import BinaryQuadratic.Proofs.Coefficient.Binary64.Bounds

/-! Rounding of numbers that are not below zero, on both sides. The doubles are a grid whose cells
grow with the numbers in them. A result is one of the two ends of the cell that it is in, so that
no double lies between a number and what it is rounded to. The grid has no upper end here: it is only
when a number is packed that it may turn out to be too large. -/

namespace BinaryQuadratic.Coefficient.Binary64

open Float.Model Float.Model.UnpackedFloat

section Cells

variable {x y v w : ℚ}

/-- What 53 digits can express, down to the least place. -/
def Grid (y : ℚ) : Prop := ∃ (m : Nat) (e : Int), m < 2 ^ 53 ∧ -1074 ≤ e ∧ y = m * 2 ^ e

/-- The cell of the grid that a number is in begins at `m` units of the place `e`. -/
structure InCell (x : ℚ) (m : Nat) (e : Int) : Prop where
  least : -1074 ≤ e
  digits : m < 2 ^ 53
  first : -1074 < e → 2 ^ 52 ≤ m
  le : m * 2 ^ e ≤ x
  lt : x < (m + 1) * 2 ^ e

/-- One end of the cell that a number is in, and that number itself if it is on the grid. -/
inductive Faithful (x v : ℚ) : Prop
  | lower (m : Nat) (e : Int) (h : InCell x m e) (hv : v = m * 2 ^ e)
  | upper (m : Nat) (e : Int) (h : InCell x m e) (hv : v = (m + 1) * 2 ^ e) (hne : m * 2 ^ e ≠ x)

theorem InCell.le_of_grid {m : Nat} {e : Int} (h : InCell x m e) (hy : Grid y) (hyx : y ≤ x) :
    y ≤ m * 2 ^ e := by
  obtain ⟨n, j, hn, hj, rfl⟩ := hy
  rcases le_or_gt e j with hle | hlt
  · obtain ⟨k, rfl⟩ := Int.le.dest hle
    have hlt : (n * 2 ^ k : ℚ) < m + 1 := by
      have := hyx.trans_lt h.lt
      rw [zpow_add₀ two_ne_zero, zpow_natCast, mul_comm (2 ^ e), ← mul_assoc] at this
      exact lt_of_mul_lt_mul_right this (zpow_pos two_pos e).le
    have hle : n * 2 ^ k ≤ m := Nat.lt_succ_iff.1 (by exact_mod_cast hlt)
    calc (n * 2 ^ (e + (k : Int)) : ℚ) = (n * 2 ^ k : Nat) * 2 ^ e := by
          rw [zpow_add₀ two_ne_zero, zpow_natCast]
          push_cast
          ring
      _ ≤ m * 2 ^ e := mul_le_mul_of_nonneg_right (by exact_mod_cast hle) (zpow_pos two_pos e).le
  · have hfirst := h.first (hj.trans_lt hlt)
    calc (n * 2 ^ j : ℚ) ≤ 2 ^ 53 * 2 ^ j :=
          mul_le_mul_of_nonneg_right (by exact_mod_cast hn.le) (zpow_pos two_pos j).le
      _ = 2 ^ 52 * 2 ^ (j + 1) := by rw [zpow_add_one₀ two_ne_zero]; ring
      _ ≤ m * 2 ^ e := by
          refine mul_le_mul (by exact_mod_cast hfirst) (zpow_le_zpow_right₀ one_le_two hlt)
            (zpow_pos two_pos _).le m.cast_nonneg

theorem InCell.ge_of_grid {m : Nat} {e : Int} (h : InCell x m e) (hy : Grid y) (hxy : x ≤ y)
    (hne : m * 2 ^ e ≠ x) : (m + 1) * 2 ^ e ≤ y := by
  have hbelow : m * 2 ^ e < y := (lt_of_le_of_ne h.le hne).trans_le hxy
  by_contra hlt
  have hcell : InCell y m e := ⟨h.least, h.digits, h.first, hbelow.le, not_le.1 hlt⟩
  exact hbelow.not_ge (hcell.le_of_grid hy le_rfl)

theorem Faithful.le_of_grid (h : Faithful x v) (hy : Grid y) (hyx : y ≤ x) : y ≤ v := by
  cases h with
  | lower m e hcell hv => exact hv ▸ hcell.le_of_grid hy hyx
  | upper m e hcell hv hne =>
    rw [hv]
    refine (hcell.le_of_grid hy hyx).trans ?_
    exact mul_le_mul_of_nonneg_right (lt_add_one (m : ℚ)).le (zpow_pos two_pos e).le

theorem Faithful.ge_of_grid (h : Faithful x v) (hy : Grid y) (hxy : x ≤ y) : v ≤ y := by
  cases h with
  | lower m e hcell hv => exact hv ▸ hcell.le.trans hxy
  | upper m e hcell hv hne => exact hv ▸ hcell.ge_of_grid hy hxy hne

theorem Faithful.eq_of_grid (h : Faithful x v) (hx : Grid x) : v = x :=
  le_antisymm (h.ge_of_grid hx le_rfl) (h.le_of_grid hx le_rfl)

def tiny : ℚ := 2 ^ (-1074 : Int)

theorem tiny_pos : 0 < tiny := zpow_pos two_pos _

theorem InCell.width_le {m : Nat} {e : Int} (h : InCell x m e) :
    (2 : ℚ) ^ e ≤ 1 / 2 ^ 52 * (m * 2 ^ e) + tiny := by
  have hpos : (0 : ℚ) ≤ 1 / 2 ^ 52 * (m * 2 ^ e) := by positivity
  rcases h.least.eq_or_lt with rfl | hlt
  · exact le_add_of_nonneg_left hpos
  · have hfirst : (2 : ℚ) ^ 52 ≤ m := by exact_mod_cast h.first hlt
    have hunit : (1 : ℚ) ≤ 1 / 2 ^ 52 * m := by
      rw [div_mul_eq_mul_div, one_mul, le_div_iff₀ (by positivity), one_mul]
      exact hfirst
    calc (2 : ℚ) ^ e ≤ 1 / 2 ^ 52 * m * 2 ^ e :=
          le_mul_of_one_le_left (zpow_pos two_pos e).le hunit
      _ = 1 / 2 ^ 52 * (m * 2 ^ e) := mul_assoc _ _ _
      _ ≤ _ := le_add_of_nonneg_right tiny_pos.le

theorem Faithful.le_slack (h : Faithful x v) : v ≤ slack * x + tiny := by
  have hslack : ∀ {m : Nat} {e : Int}, InCell x m e → m * 2 ^ e + 2 ^ e ≤ slack * x + tiny := by
    intro m e hcell
    have hwidth := hcell.width_le
    have hle := hcell.le
    have hpart : 1 / 2 ^ 52 * (m * 2 ^ e : ℚ) ≤ 1 / 2 ^ 52 * x :=
      mul_le_mul_of_nonneg_left hle (by norm_num)
    rw [slack, add_mul, one_mul]
    linarith
  cases h with
  | lower m e hcell hv =>
    have hpos : (0 : ℚ) < 2 ^ e := zpow_pos two_pos e
    have := hslack hcell
    rw [hv]
    linarith
  | upper m e hcell hv hne =>
    rw [hv, add_mul, one_mul]
    exact hslack hcell

theorem Faithful.slack_ge (h : Faithful x v) : x ≤ slack * v + tiny := by
  obtain ⟨m, e, hcell, hv⟩ : ∃ m e, InCell x m e ∧ m * 2 ^ e ≤ v := by
    cases h with
    | lower m e hcell hv => exact ⟨m, e, hcell, hv.ge⟩
    | upper m e hcell hv hne =>
      refine ⟨m, e, hcell, hv ▸ ?_⟩
      exact mul_le_mul_of_nonneg_right (lt_add_one (m : ℚ)).le (zpow_pos two_pos e).le
  have hwidth := hcell.width_le
  have hlt := hcell.lt
  have hpart : 1 / 2 ^ 52 * (m * 2 ^ e : ℚ) ≤ 1 / 2 ^ 52 * v :=
    mul_le_mul_of_nonneg_left hv (by norm_num)
  rw [add_mul, one_mul] at hlt
  rw [slack, add_mul, one_mul]
  linarith

theorem Faithful.le_of_two_mul_le (hx : Faithful x v) (hy : Faithful y w) (h : 2 * x ≤ y)
    (htiny : tiny ≤ y) : v ≤ w := by
  rcases le_or_gt x tiny with hle | hlt
  · have hgrid : Grid tiny := ⟨1, -1074, by norm_num, le_rfl, by rw [tiny, Nat.cast_one, one_mul]⟩
    exact (hx.ge_of_grid hgrid hle).trans (hy.le_of_grid hgrid htiny)
  · obtain ⟨n, hn, hn'⟩ := exists_mem_Ico_zpow (tiny_pos.trans hlt) (one_lt_two (α := ℚ))
    have hplace : (-1074 : Int) < n + 1 :=
      (zpow_lt_zpow_iff_right₀ (one_lt_two (α := ℚ))).1 (hlt.trans hn')
    have hgrid : Grid (2 ^ (n + 1)) :=
      ⟨1, n + 1, by norm_num, hplace.le, by rw [Nat.cast_one, one_mul]⟩
    have hle : (2 : ℚ) ^ (n + 1) ≤ y := by
      rw [zpow_add_one₀ two_ne_zero, mul_comm]
      exact (mul_le_mul_of_nonneg_left hn two_pos.le).trans h
    exact (hx.ge_of_grid hgrid hn'.le).trans (hy.le_of_grid hgrid hle)

end Cells

section Shifts

variable {x : ℚ} {em : ExtendedMantissa} {m : Nat} {e : Int}

/-- A mantissa with digits cut off. It is marked as such, unless these are all zero. -/
structure Approximates (em : ExtendedMantissa) (e : Int) (x : ℚ) : Prop where
  le : em.mantissa * 2 ^ e ≤ x
  lt : x < (em.mantissa + 1) * 2 ^ e
  unmarked : em.mantissa * 2 ^ e = x → em.roundBit = false ∧ em.stickyBit = false

theorem Approximates.shiftRightOne (h : Approximates em e x) :
    Approximates em.shiftRightOne (e + 1) x := by
  have hpos : (0 : ℚ) < 2 ^ e := zpow_pos two_pos e
  have hdigits : (em.mantissa : ℚ) = 2 * (em.mantissa / 2 : Nat) + (em.mantissa % 2 : Nat) := by
    exact_mod_cast (Nat.div_add_mod em.mantissa 2).symm
  have hdouble : ∀ k : ℚ, k * 2 ^ (e + 1) = 2 * k * 2 ^ e := fun k => by
    rw [zpow_add_one₀ two_ne_zero]
    ring
  refine ⟨?_, ?_, fun heq => ?_⟩
  · rw [hdouble]
    refine (mul_le_mul_of_nonneg_right ?_ hpos.le).trans h.le
    rw [hdigits]
    exact le_add_of_nonneg_right (Nat.cast_nonneg _)
  · rw [hdouble]
    refine h.lt.trans_le (mul_le_mul_of_nonneg_right ?_ hpos.le)
    have hdigit : ((em.mantissa % 2 : Nat) : ℚ) ≤ 1 := by
      exact_mod_cast Nat.lt_succ_iff.1 (Nat.mod_lt _ two_pos)
    rw [hdigits]
    change 2 * ((em.mantissa / 2 : Nat) : ℚ) + (em.mantissa % 2 : Nat) + 1 ≤
      2 * (((em.mantissa / 2 : Nat) : ℚ) + 1)
    linarith
  · -- what is exact after the shift has lost no digit in it
    rw [hdouble] at heq
    have hle := h.le
    rw [← heq, mul_le_mul_iff_left₀ hpos, hdigits] at hle
    have hzero : em.mantissa % 2 = 0 := by
      have : ((em.mantissa % 2 : Nat) : ℚ) ≤ 0 := by
        change 2 * ((em.mantissa / 2 : Nat) : ℚ) + _ ≤ 2 * ((em.mantissa / 2 : Nat) : ℚ) at hle
        linarith
      exact_mod_cast le_antisymm this (Nat.cast_nonneg _)
    have hexact : em.mantissa * 2 ^ e = x := by
      rw [← heq, hdigits, hzero, Nat.cast_zero, add_zero]
      rfl
    obtain ⟨hround, hsticky⟩ := h.unmarked hexact
    simp [ExtendedMantissa.shiftRightOne, hzero, hround, hsticky]

theorem Approximates.shiftRight (h : Approximates em e x) (k : Nat) :
    Approximates (em >>> k) (e + k) x := by
  induction k with
  | zero => rwa [Nat.cast_zero, add_zero]
  | succ k ih =>
    rw [Nat.cast_succ, ← add_assoc]
    exact ih.shiftRightOne

theorem roundedMantissa_cases (em : ExtendedMantissa) : em.roundedMantissa = em.mantissa ∨
    (em.roundedMantissa = em.mantissa + 1 ∧ em.roundBit = true) := by
  rcases em with ⟨m, _ | _, _ | _⟩
  · exact .inl rfl
  · exact .inl rfl
  · rcases Nat.mod_two_eq_zero_or_one m with hm | hm
    · exact .inl (congrArg (m + ·) hm)
    · exact .inr ⟨congrArg (m + ·) hm, rfl⟩
  · exact .inr ⟨rfl, rfl⟩

theorem targetExponent_eq (m : Nat) (e : Int) :
    Format.binary64.targetExponent (totalExponent m e) = max (m.log2 + e - 52) (-1074) := by
  have hdigits : (Format.binary64.mantissaBits : Int) = 53 := rfl
  have hleast : Format.binary64.minExponent = -1074 := rfl
  rw [Format.targetExponent, totalExponent, hdigits, hleast]
  congr 1
  omega

theorem shiftToTargetExponent_inCell {a : Accuracy}
    (h : Approximates (.ofMantissaAndAccuracy m a) e x) (he : e ≤ max (m.log2 + e - 52) (-1074)) :
    ∃ em t, shiftToTargetExponent Format.binary64 m e a = (em, t) ∧ Approximates em t x ∧
      InCell x em.mantissa t := by
  obtain ⟨k, hk⟩ := Int.le.dest he
  have hshift : (Format.binary64.targetExponent (totalExponent m e) - e).toNat = k := by
    rw [targetExponent_eq, ← hk]
    omega
  have happrox := h.shiftRight k
  have hmantissa : (ExtendedMantissa.ofMantissaAndAccuracy m a >>> k).mantissa = m / 2 ^ k := by
    rw [mantissa_shiftRight, mantissa_ofMantissaAndAccuracy]
  have hlog : (m / 2 ^ k).log2 = m.log2 - k := log2_div_two_pow k
  refine ⟨_, _, ?_, happrox, ?_, ?_, fun hlt => ?_, happrox.le, happrox.lt⟩
  · unfold shiftToTargetExponent shiftToExponent
    simp only [hshift]
  · omega
  · rw [hmantissa]
    refine Nat.lt_log2_self.trans_le (Nat.pow_le_pow_right two_pos ?_)
    omega
  · rw [hmantissa]
    have hlarge : (m / 2 ^ k).log2 = 52 := by omega
    refine hlarge ▸ Nat.log2_self_le fun hzero => ?_
    rw [hzero] at hlarge
    cases hlarge

end Shifts

section Results

variable {x y v : ℚ} {u w : UnpackedFloat} {m m' : Nat} {e e' : Int}

/-- A number that is not below zero, with its digits as rounding leaves them. -/
inductive Holds (v : ℚ) : UnpackedFloat → Prop
  | zero (s : Sign) (hv : v = 0) : Holds v (.zero s)
  | finite (m : Nat) (e : Int) (h : 0 < m) (hcell : InCell v m e) (hv : v = m * 2 ^ e) :
    Holds v (.finite .positive m e h)

theorem Holds.nonneg (h : Holds v u) : 0 ≤ v := by
  cases h with
  | zero s hv => exact hv.ge
  | finite m e h hcell hv => exact hv ▸ (value_pos h).le

theorem InCell.self (he : -1074 ≤ e) (hm : m < 2 ^ 53) (hfirst : -1074 < e → 2 ^ 52 ≤ m) :
    InCell (m * 2 ^ e) m e :=
  ⟨he, hm, hfirst, le_rfl, mul_lt_mul_of_pos_right (lt_add_one _) (zpow_pos two_pos e)⟩

theorem Holds.faithful (h : Holds v u) : Faithful v v := by
  cases h with
  | zero s hv =>
    have hcell : InCell 0 0 (-1074) := by
      simpa using InCell.self (m := 0) (e := -1074) le_rfl (by norm_num) (absurd · (lt_irrefl _))
    exact .lower 0 (-1074) (hv ▸ hcell) (by rw [hv, Nat.cast_zero, zero_mul])
  | finite m e h hcell hv => exact .lower m e hcell hv

theorem Holds.exists_faithful (h : Holds v u) : ∃ w, Faithful v w ∧ Holds w u :=
  ⟨v, h.faithful, h⟩

theorem Holds.grid (h : Holds v u) : Grid v := by
  cases h with
  | zero s hv => exact ⟨0, 0, by norm_num, by norm_num, by rw [hv, Nat.cast_zero, zero_mul]⟩
  | finite m e h hcell hv => exact ⟨m, e, hcell.digits, hcell.least, hv⟩

theorem holds_of_digits (h : 0 < m) (he : -1074 ≤ e) (hm : m < 2 ^ 53)
    (hfirst : -1074 < e → 2 ^ 52 ≤ m) : Holds (m * 2 ^ e) (.finite .positive m e h) :=
  .finite m e h (.self he hm hfirst) rfl

/-- The rest of a rounding, after its first cut: one unit more may add a digit, and the second cut
takes away a zero then. -/
theorem holds_shiftToTargetExponent {k : Nat} (he : -1074 ≤ e) (hk : k ≤ 2 ^ 53)
    (hfirst : -1074 < e → 2 ^ 52 ≤ k) :
    Holds (k * 2 ^ e)
      (let (em, t) := shiftToTargetExponent Format.binary64 k e .exact
       if h : em.mantissa = 0 then .zero .positive
       else .finite .positive em.mantissa t (Nat.pos_of_ne_zero h)) := by
  have hamount : (Format.binary64.targetExponent (totalExponent k e) - e).toNat =
      if k = 2 ^ 53 then 1 else 0 := by
    rw [targetExponent_eq]
    split
    · next hcarry =>
      have hlog : k.log2 = 53 := hcarry ▸ Nat.log2_two_pow
      omega
    · next hcarry =>
      rcases Nat.eq_zero_or_pos k with rfl | hpos
      · have : Nat.log2 0 = 0 := by decide
        omega
      · have hlog : k.log2 < 53 := (Nat.log2_lt hpos.ne').2 (lt_of_le_of_ne hk hcarry)
        omega
  unfold shiftToTargetExponent shiftToExponent
  simp only [hamount, mantissa_shiftRight, mantissa_ofMantissaAndAccuracy]
  by_cases hcarry : k = 2 ^ 53
  · subst hcarry
    have hvalue : ((2 ^ 53 : Nat) * 2 ^ e : ℚ) = (2 ^ 52 : Nat) * 2 ^ (e + 1) := by
      rw [zpow_add_one₀ two_ne_zero]
      push_cast
      ring
    rw [hvalue]
    exact holds_of_digits (by norm_num) (by omega) (by norm_num) fun _ => by norm_num
  · simp only [if_neg hcarry, Nat.pow_zero, Nat.div_one, Nat.cast_zero, add_zero]
    split
    · next hzero => exact .zero _ (by rw [hzero, Nat.cast_zero, zero_mul])
    · next hne =>
      exact holds_of_digits (Nat.pos_of_ne_zero hne) he (lt_of_le_of_ne hk hcarry) hfirst

theorem exists_roundWithAccuracy {a : Accuracy}
    (h : Approximates (.ofMantissaAndAccuracy m a) e x) (he : e ≤ max (m.log2 + e - 52) (-1074)) :
    ∃ v, Faithful x v ∧ Holds v (roundWithAccuracy Format.binary64 .positive m e a) := by
  obtain ⟨em, t, hshift, happrox, hcell⟩ := shiftToTargetExponent_inCell h he
  refine ⟨em.roundedMantissa * 2 ^ t, ?_, ?_⟩
  · rcases roundedMantissa_cases em with heq | ⟨heq, hbit⟩
    · exact .lower em.mantissa t hcell (by rw [heq])
    · refine .upper em.mantissa t hcell (by rw [heq, Nat.cast_succ]) fun hexact => ?_
      rw [(happrox.unmarked hexact).1] at hbit
      cases hbit
  · unfold roundWithAccuracy
    simp only [hshift]
    have hrounded := mantissa_le_roundedMantissa em
    have hlt := hcell.digits
    refine holds_shiftToTargetExponent hcell.least ?_ fun hlt => (hcell.first hlt).trans hrounded
    rcases roundedMantissa_cases em with heq | ⟨heq, -⟩ <;> omega

/-- A number that is not below zero as a double, infinite if there is no room for it. -/
inductive Result (v : ℚ) : UnpackedFloat → Prop
  | finite (u : UnpackedFloat) (hv : v < 2 ^ 1024) (h : Holds v u) : Result v u
  | infinity (hv : 2 ^ 1024 ≤ v) : Result v (.infinity .positive)

theorem InCell.lt_of_le (h : InCell (m * 2 ^ e) m e) (he : e ≤ 971) :
    (m * 2 ^ e : ℚ) < 2 ^ 1024 := by
  calc (m * 2 ^ e : ℚ) < 2 ^ 53 * 2 ^ e :=
        mul_lt_mul_of_pos_right (by exact_mod_cast h.digits) (zpow_pos two_pos e)
    _ ≤ 2 ^ 53 * 2 ^ (971 : Int) :=
        mul_le_mul_of_nonneg_left (zpow_le_zpow_right₀ one_le_two he) (by positivity)
    _ = 2 ^ 1024 := by
        rw [show (971 : Int) = (971 : Nat) from rfl, zpow_natCast, ← pow_add]

theorem InCell.le_of_lt (h : InCell (m * 2 ^ e) m e) (he : 971 < e) :
    (2 : ℚ) ^ 1024 ≤ m * 2 ^ e := by
  have hfirst : (2 : ℚ) ^ 52 ≤ m := by exact_mod_cast h.first (by omega)
  calc (2 : ℚ) ^ 1024 = 2 ^ 52 * (2 : ℚ) ^ (972 : Int) := by
        rw [show (972 : Int) = (972 : Nat) from rfl, zpow_natCast, ← pow_add]
    _ ≤ (m : ℚ) * 2 ^ e :=
        mul_le_mul hfirst (zpow_le_zpow_right₀ one_le_two he) (by positivity) m.cast_nonneg

theorem Holds.pack (h : Holds v u) : Result v (Float.Model.pack u).unpack := by
  cases h with
  | zero s hv =>
    have hsmall : v < 2 ^ 1024 := hv ▸ by positivity
    cases s <;> exact .finite _ hsmall (.zero _ hv)
  | finite m e h hcell hv =>
    subst hv
    rcases le_or_gt e 971 with he | he
    · rw [unpack_pack_of_stored ⟨hcell.least, he, hcell.digits, hcell.first⟩]
      exact .finite _ (hcell.lt_of_le he) (.finite m e h hcell rfl)
    · rw [unpack_pack_of_lt he]
      exact .infinity (hcell.le_of_lt he)

end Results

section Operations

variable {x y v : ℚ} {u w : UnpackedFloat} {m m' : Nat} {e e' : Int}

theorem approximates_exact (m : Nat) (e : Int) :
    Approximates (.ofMantissaAndAccuracy m .exact) e (m * 2 ^ e) where
  le := le_rfl
  lt := mul_lt_mul_of_pos_right (lt_add_one _) (zpow_pos two_pos e)
  unmarked _ := ⟨rfl, rfl⟩

theorem exists_round (hm : 0 < m) (e : Int) :
    ∃ v, Faithful (m * 2 ^ e) v ∧ Holds v (UnpackedFloat.round Format.binary64 .positive m e) := by
  obtain ⟨k, hk⟩ : ∃ k, k = (e - max (m.log2 + e - 52) (-1074)).toNat := ⟨_, rfl⟩
  have hlog := log2_shiftLeft hm k
  unfold UnpackedFloat.round decreaseExponent
  simp only [targetExponent_eq, ← hk]
  rw [← shiftLeft_mul_zpow m k e]
  exact exists_roundWithAccuracy (approximates_exact _ _) (by rw [hlog]; omega)

theorem exists_normalize {n : Int} (hn : 0 ≤ n) (e : Int) : ∃ v, Faithful (n * 2 ^ e) v ∧
    Holds v (UnpackedFloat.normalize Format.binary64 n e .positive) := by
  unfold UnpackedFloat.normalize
  split
  · next h => exact absurd (compare_lt_iff_lt.1 h) hn.not_gt
  · next h =>
    have hzero : (n * 2 ^ e : ℚ) = 0 := by rw [compare_eq_iff_eq.1 h, Int.cast_zero, zero_mul]
    exact Holds.exists_faithful (.zero .positive hzero)
  · next h =>
    have hpos : 0 < n := compare_gt_iff_gt.1 h
    have hcast : (n : ℚ) = (n.toNat : Nat) := by exact_mod_cast (Int.toNat_of_nonneg hn).symm
    rw [hcast]
    exact exists_round (by omega) e

theorem Holds.mul (hu : Holds x u) (hw : Holds y w) :
    ∃ v, Faithful (x * y) v ∧ Holds v (UnpackedFloat.mul Format.binary64 u w) := by
  have hzero : ∀ s, x * y = 0 → ∃ v, Faithful (x * y) v ∧ Holds v (.zero s) := fun s h =>
    Holds.exists_faithful (.zero s h)
  cases hu with
  | zero s hx => cases hw <;> exact hzero _ (by rw [hx, zero_mul])
  | finite m e h hcell hx =>
    cases hw with
    | zero s hy => exact hzero _ (by rw [hy, mul_zero])
    | finite m' e' h' hcell' hy =>
      have hvalue : x * y = (m * m' : Nat) * 2 ^ (e + e') := by
        rw [hx, hy, Nat.cast_mul, zpow_add₀ two_ne_zero, mul_mul_mul_comm]
      have hdigits : 2 ^ 52 ≤ m ∨ 2 ^ 52 ≤ m' → 52 ≤ (m * m').log2 := by
        intro hlarge
        rw [Nat.le_log2 (Nat.mul_pos h h').ne']
        rcases hlarge with hm | hm'
        · exact hm.trans (Nat.le_mul_of_pos_right m h')
        · exact hm'.trans (Nat.le_mul_of_pos_left m' h)
      have hleast := hcell.least
      have hleast' := hcell'.least
      rw [hvalue]
      refine exists_roundWithAccuracy (approximates_exact _ _) ?_
      by_cases he : -1074 < e
      · have := hdigits (.inl (hcell.first he))
        omega
      · by_cases he' : -1074 < e'
        · have := hdigits (.inr (hcell'.first he'))
          omega
        · omega

theorem approximates_quotient (n : Nat) (h' : 0 < m') (t : Int) :
    Approximates (.ofMantissaAndAccuracy (n / m') (accuracyOfFraction (n % m') m')) t
      (n / m' * 2 ^ t) := by
  have hpos : (0 : ℚ) < m' := by exact_mod_cast h'
  have hpower : (0 : ℚ) < 2 ^ t := zpow_pos two_pos t
  refine ⟨?_, ?_, fun hexact => ?_⟩
  · rw [mantissa_ofMantissaAndAccuracy]
    refine mul_le_mul_of_nonneg_right ?_ hpower.le
    rw [le_div_iff₀ hpos]
    exact_mod_cast Nat.div_mul_le_self _ _
  · rw [mantissa_ofMantissaAndAccuracy]
    refine mul_lt_mul_of_pos_right ?_ hpower
    rw [div_lt_iff₀ hpos]
    exact_mod_cast Nat.lt_mul_of_div_lt (Nat.lt_succ_self _) h'
  · rw [mantissa_ofMantissaAndAccuracy, mul_left_inj' hpower.ne', eq_div_iff hpos.ne'] at hexact
    have hrest : n % m' = 0 :=
      Nat.mod_eq_zero_of_dvd ⟨n / m', by
        rw [mul_comm m']
        exact_mod_cast hexact.symm⟩
    rw [accuracyOfFraction, if_pos hrest]
    exact ⟨rfl, rfl⟩

theorem exists_divCore (h : 0 < m) (h' : 0 < m') (e e' : Int) :
    ∃ q t a, divCore Format.binary64 m e m' e' = (q, t, a) ∧ t ≤ max (q.log2 + t - 52) (-1074) ∧
      Approximates (.ofMantissaAndAccuracy q a) t (m * 2 ^ e / (m' * 2 ^ e')) := by
  have hdigits : (Format.binary64.mantissaBits : Int) = 53 := rfl
  have hleast : Format.binary64.minExponent = -1074 := rfl
  obtain ⟨t, ht⟩ : ∃ t, t = min (e - e')
      (Format.binary64.targetExponent (totalExponent m e - totalExponent m' e')) := ⟨_, rfl⟩
  have htarget : t ≤ max (m.log2 + e - (m'.log2 + e') - 53) (-1074) := by
    rw [ht, Format.targetExponent, totalExponent, totalExponent, hdigits, hleast]
    omega
  obtain ⟨k, hk⟩ : ∃ k : Nat, (k : Int) = e - e' - t := ⟨(e - e' - t).toNat, by omega⟩
  have hvalue : (m * 2 ^ e / (m' * 2 ^ e') : ℚ) = (m * 2 ^ k : Nat) / m' * 2 ^ t :=
    div_eq_div_mul h' (by omega)
  refine ⟨m * 2 ^ k / m', t, accuracyOfFraction (m * 2 ^ k % m') m', ?_, ?_,
    hvalue ▸ approximates_quotient _ h' t⟩
  · have hshift : (e - e' - t).toNat = k := by omega
    unfold divCore
    simp only [← ht, hshift, Nat.shiftLeft_eq]
  · by_cases hsmall : t ≤ -1074
    · exact hsmall.trans (le_max_right _ _)
    · have hquotient := le_div_of_log2 (k := k) h h' (by omega)
      have hlog : 52 ≤ (m * 2 ^ k / m').log2 :=
        (Nat.le_log2 ((Nat.two_pow_pos 52).trans_le hquotient).ne').2 hquotient
      omega

theorem Holds.div (hu : Holds x u) (hw : Holds y w) (hy : 0 < y) :
    ∃ v, Faithful (x / y) v ∧ Holds v (UnpackedFloat.div Format.binary64 u w) := by
  cases hw with
  | zero s hzero => exact absurd hzero hy.ne'
  | finite m' e' h' hcell' hyv =>
    cases hu with
    | zero s hx =>
      exact Holds.exists_faithful (.zero (s / .positive) (by rw [hx, zero_div]))
    | finite m e h hcell hx =>
      obtain ⟨q, t, a, hcore, hplace, happrox⟩ := exists_divCore h h' e e'
      rw [UnpackedFloat.div, hcore, hx, hyv]
      exact exists_roundWithAccuracy happrox hplace

theorem Holds.add (hu : Holds x u) (hw : Holds y w) :
    ∃ v, Faithful (x + y) v ∧ Holds v (UnpackedFloat.add Format.binary64 u w) := by
  cases hu with
  | zero s hx =>
    subst hx
    rw [zero_add]
    cases hw with
    | zero s' hy =>
      cases s <;> cases s' <;> exact Holds.exists_faithful (.zero _ hy)
    | finite m' e' h' hcell' hy =>
      exact Holds.exists_faithful (.finite m' e' h' hcell' hy)
  | finite m e h hcell hx =>
    cases hw with
    | zero s' hy =>
      subst hy
      rw [add_zero]
      exact Holds.exists_faithful (.finite m e h hcell hx)
    | finite m' e' h' hcell' hy =>
      have hvalue : x + y = (((m <<< (e - min e e').toNat : Nat) +
          (m' <<< (e' - min e e').toNat : Nat) : Int) : ℚ) * 2 ^ min e e' := by
        rw [Int.cast_add, Int.cast_natCast, Int.cast_natCast, add_mul,
          shiftLeft_mul_zpow_of_le m (min_le_left _ _),
          shiftLeft_mul_zpow_of_le m' (min_le_right _ _), hx, hy]
      rw [hvalue]
      exact exists_normalize (by positivity) _

theorem Holds.sub (hu : Holds x u) (hw : Holds y w) (hyx : y ≤ x) :
    ∃ v, Faithful (x - y) v ∧ Holds v (UnpackedFloat.sub Format.binary64 u w) := by
  cases hw with
  | zero s' hy =>
    subst hy
    rw [sub_zero]
    cases hu with
    | zero s hx =>
      cases s <;> cases s' <;> exact Holds.exists_faithful (.zero _ hx)
    | finite m e h hcell hx =>
      exact Holds.exists_faithful (.finite m e h hcell hx)
  | finite m' e' h' hcell' hy =>
    have hypos : 0 < y := hy ▸ value_pos h'
    cases hu with
    | zero s hx => exact absurd (hx ▸ hyx) hypos.not_ge
    | finite m e h hcell hx =>
      have hvalue : x - y = (((m <<< (e - min e e').toNat : Nat) -
          (m' <<< (e' - min e e').toNat : Nat) : Int) : ℚ) * 2 ^ min e e' := by
        rw [Int.cast_sub, Int.cast_natCast, Int.cast_natCast, sub_mul,
          shiftLeft_mul_zpow_of_le m (min_le_left _ _),
          shiftLeft_mul_zpow_of_le m' (min_le_right _ _), hx, hy]
      have hnonneg := sub_nonneg.2 hyx
      rw [hvalue] at hnonneg ⊢
      have hpos : (0 : ℚ) < 2 ^ min e e' := zpow_pos two_pos _
      exact exists_normalize (Int.cast_nonneg_iff.1 ((mul_nonneg_iff_of_pos_right hpos).1 hnonneg)) _

end Operations

end BinaryQuadratic.Coefficient.Binary64

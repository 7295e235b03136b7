import BinaryQuadratic.Proofs.Coefficient.Binary64.Rounding

/-! Values of doubles that are not below zero. They are in the order of their values, arithmetic
rounds what it would be for the values, and a multiple of an even part of a value is hardly larger than
the value that was divided. -/

namespace BinaryQuadratic.Coefficient.Binary64

open Float.Model Float.Model.UnpackedFloat

variable {a b : Float} {x y v w : ℚ}

def HasValue (a : Float) (v : ℚ) : Prop := Holds v a.toModel.unpack

/-- A double that a number is rounded to; it is infinite if there is no room for that number. -/
def Rounds (x : ℚ) (a : Float) : Prop := ∃ v, Faithful x v ∧ Result v a.toModel.unpack

section Arithmetic

theorem HasValue.nonneg (h : HasValue a v) : 0 ≤ v := Holds.nonneg h

theorem HasValue.mul (ha : HasValue a x) (hb : HasValue b y) : Rounds (x * y) (a * b) := by
  obtain ⟨v, hv, hholds⟩ := Holds.mul ha hb
  exact ⟨v, hv, hholds.pack⟩

theorem HasValue.div (ha : HasValue a x) (hb : HasValue b y) (hy : 0 < y) :
    Rounds (x / y) (a / b) := by
  obtain ⟨v, hv, hholds⟩ := Holds.div ha hb hy
  exact ⟨v, hv, hholds.pack⟩

theorem HasValue.add (ha : HasValue a x) (hb : HasValue b y) : Rounds (x + y) (a + b) := by
  obtain ⟨v, hv, hholds⟩ := Holds.add ha hb
  exact ⟨v, hv, hholds.pack⟩

theorem HasValue.sub (ha : HasValue a x) (hb : HasValue b y) (hyx : y ≤ x) :
    Rounds (x - y) (a - b) := by
  obtain ⟨v, hv, hholds⟩ := Holds.sub ha hb hyx
  exact ⟨v, hv, hholds.pack⟩

theorem hasValue_one : HasValue (Float.ofNat 1) 1 := by
  have h : (Float.ofNat 1).toModel.unpack = .finite .positive (2 ^ 52) (-52) (by decide) := rfl
  have hvalue : (1 : ℚ) = (2 ^ 52 : Nat) * 2 ^ (-52 : Int) := by norm_num
  rw [HasValue, h, hvalue]
  exact holds_of_digits (by norm_num) (by norm_num) (by norm_num) fun _ => by norm_num

theorem HasValue.lt (h : HasValue a v) : v < 2 ^ 1024 := by
  have hstored : Stored a.toModel.unpack := stored_unpack _
  unfold HasValue at h
  generalize a.toModel.unpack = u at *
  cases h with
  | zero s hv => exact hv ▸ by positivity
  | finite m e h hcell hv =>
    subst hv
    exact hcell.lt_of_le hstored.2.1

theorem HasValue.isFinite (h : HasValue a v) : a.isFinite = true := by
  change a.toModel.unpack.isFinite = true
  unfold HasValue at h
  generalize a.toModel.unpack = u at *
  cases h <;> rfl

theorem HasValue.notBelow (h : HasValue a v) : NotBelow a.toModel.unpack := by
  unfold HasValue at h
  generalize a.toModel.unpack = u at *
  cases h with
  | zero s hv => exact .zero s
  | finite m e h hcell hv => exact .finite m e h

end Arithmetic

section Order

theorem value_lt_of_place_lt {m m' : Nat} {e e' : Int} {h : 0 < m} {h' : 0 < m'}
    (hu : Stored (.finite .positive m e h)) (hv : Stored (.finite .positive m' e' h'))
    (hlt : place (.finite .positive m e h) < place (.finite .positive m' e' h')) :
    (m * 2 ^ e : ℚ) < m' * 2 ^ e' := by
  obtain ⟨he, -, hm, hfirst⟩ := hu
  obtain ⟨he', -, hm', hfirst'⟩ := hv
  simp only [place, Sign.apply] at hlt
  rcases lt_trichotomy e e' with hee | rfl | hee
  · have hdigit : (2 : ℚ) ^ 52 ≤ m' := by exact_mod_cast hfirst' (he.trans_lt hee)
    calc (m * 2 ^ e : ℚ) < 2 ^ 53 * 2 ^ e :=
          mul_lt_mul_of_pos_right (by exact_mod_cast hm) (zpow_pos two_pos e)
      _ = 2 ^ 52 * 2 ^ (e + 1) := by rw [zpow_add_one₀ two_ne_zero]; ring
      _ ≤ m' * 2 ^ e' :=
          mul_le_mul hdigit (zpow_le_zpow_right₀ one_le_two hee) (zpow_pos two_pos _).le
            m'.cast_nonneg
  · refine mul_lt_mul_of_pos_right ?_ (zpow_pos two_pos e)
    exact_mod_cast (by omega : m < m')
  · have := hfirst (he'.trans_lt hee)
    omega

theorem HasValue.le_iff (ha : HasValue a x) (hb : HasValue b y) : a ≤ b ↔ x ≤ y := by
  have hle : a ≤ b ↔ a.toModel.unpack.le b.toModel.unpack = true := decide_eq_true_iff
  have has : Stored a.toModel.unpack := stored_unpack _
  have hbs : Stored b.toModel.unpack := stored_unpack _
  rw [hle]
  unfold HasValue at ha hb
  generalize a.toModel.unpack = u at *
  generalize b.toModel.unpack = w at *
  cases ha with
  | zero s hx =>
    refine iff_of_true ?_ (hx ▸ hb.nonneg)
    cases hb <;> rfl
  | finite m e h hcell hx =>
    cases hb with
    | zero s hy => exact iff_of_false Bool.false_ne_true (hx ▸ hy ▸ (value_pos h).not_ge)
    | finite m' e' h' hcell' hy =>
      rw [finite_le_iff has hbs, hx, hy]
      exact ⟨value_le_of_place_le has hbs,
        fun hle => not_lt.1 fun hlt => hle.not_gt (value_lt_of_place_lt hbs has hlt)⟩

theorem HasValue.isNumber (ha : HasValue a x) : IsNumber a := isNumber_of_isFinite ha.isFinite

theorem HasValue.lt_iff (ha : HasValue a x) (hb : HasValue b y) : a < b ↔ x < y := by
  rw [Comparable.lt_iff, ha.le_iff hb, hb.le_iff ha, lt_iff_le_not_ge]

theorem HasValue.unique (hx : HasValue a x) (hy : HasValue a y) : x = y :=
  le_antisymm ((hx.le_iff hy).1 hx.isNumber.le_refl) ((hy.le_iff hx).1 hx.isNumber.le_refl)

theorem Result.hasValue_or (h : Result v a.toModel.unpack) :
    HasValue a v ∨ (2 ^ 1024 ≤ v ∧ a.toModel.unpack = .infinity .positive) := by
  unfold HasValue
  generalize a.toModel.unpack = u at *
  cases h with
  | finite u hlt hholds => exact .inl hholds
  | infinity hle => exact .inr ⟨hle, rfl⟩

theorem HasValue.le_infinity (ha : HasValue a x) (hb : b.toModel.unpack = .infinity .positive) :
    a ≤ b := by
  have hle : a.toModel.unpack.le b.toModel.unpack = true := by
    rw [hb]
    unfold HasValue at ha
    generalize a.toModel.unpack = u at *
    cases ha <;> rfl
  exact decide_eq_true hle

theorem HasValue.pos_or_eq_zero (h : HasValue a v) (ha : Signless a.toModel.unpack) :
    0 < v ∨ a.toModel.unpack = .zero .positive := by
  unfold HasValue at h
  generalize a.toModel.unpack = u at *
  cases h with
  | zero s hv =>
    cases ha
    exact .inr rfl
  | finite m e h hcell hv => exact .inl (hv ▸ value_pos h)

theorem Result.le (ha : Result v a.toModel.unpack) (hb : Result w b.toModel.unpack) (h : v ≤ w) :
    a ≤ b := by
  rcases ha.hasValue_or with ha | ⟨hlarge, ha⟩
  · rcases hb.hasValue_or with hb | ⟨-, hb⟩
    · exact (ha.le_iff hb).2 h
    · exact ha.le_infinity hb
  · rcases hb.hasValue_or with hb | ⟨-, hb⟩
    · exact absurd (hlarge.trans h) hb.lt.not_ge
    · have hle : a.toModel.unpack.le b.toModel.unpack = true := by rw [ha, hb]; rfl
      exact decide_eq_true hle

theorem exists_hasValue_of_le (ha : NotBelow a.toModel.unpack) (hb : HasValue b y) (h : a ≤ b) :
    ∃ x, HasValue a x ∧ x ≤ y := by
  suffices hvalue : ∃ x, HasValue a x by
    obtain ⟨x, hx⟩ := hvalue
    exact ⟨x, hx, (hx.le_iff hb).1 h⟩
  have hstored : Stored a.toModel.unpack := stored_unpack _
  have hle : a.toModel.unpack.le b.toModel.unpack = true := of_decide_eq_true h
  unfold HasValue at hb ⊢
  generalize a.toModel.unpack = u at *
  generalize b.toModel.unpack = w at *
  cases ha with
  | notANumber => cases hle
  | zero s => exact ⟨0, .zero s rfl⟩
  | finite m e hm => exact ⟨_, holds_of_digits hm hstored.1 hstored.2.2.1 hstored.2.2.2⟩
  | infinity => cases hb <;> cases hle

theorem hasValue_or_of_nonneg (h : 0 ≤ a) :
    (∃ v, HasValue a v) ∨ a.toModel.unpack = .infinity .positive := by
  have hstored : Stored a.toModel.unpack := stored_unpack _
  have hle : (UnpackedFloat.zero .positive).le a.toModel.unpack = true := of_decide_eq_true h
  unfold HasValue
  generalize a.toModel.unpack = u at *
  cases u with
  | notANumber => cases hle
  | zero s => exact .inl ⟨0, .zero s rfl⟩
  | infinity s =>
    cases s with
    | negative => cases hle
    | positive => exact .inr rfl
  | finite s m e hm =>
    cases s with
    | negative => cases hle
    | positive => exact .inl ⟨_, .finite m e hm (.self hstored.1 hstored.2.2.1 hstored.2.2.2) rfl⟩

end Order

section Room

variable {k : Nat}

theorem grid_two_pow (k : Nat) : Grid (2 ^ k) :=
  ⟨1, k, by norm_num, by omega, by rw [Nat.cast_one, one_mul, zpow_natCast]⟩

theorem Rounds.faithful {a : Float} {x v : ℚ} (h : Rounds x a) (ha : HasValue a v) :
    Faithful x v := by
  obtain ⟨w, hw, hresult⟩ := h
  rcases hresult.hasValue_or with hvalue | ⟨-, hinfinity⟩
  · rwa [ha.unique hvalue]
  · exact absurd ha (by rw [HasValue, hinfinity]; exact nofun)

theorem Rounds.hasValue (h : Rounds x a) (hk : k < 1024) (hx : x ≤ 2 ^ k) :
    ∃ v, HasValue a v ∧ Faithful x v := by
  obtain ⟨v, hv, hresult⟩ := h
  rcases hresult.hasValue_or with hvalue | ⟨hlarge, -⟩
  · exact ⟨v, hvalue, hv⟩
  · have hlt : v < 2 ^ 1024 :=
      (hv.ge_of_grid (grid_two_pow k) hx).trans_lt (pow_lt_pow_right₀ one_lt_two hk)
    exact absurd hlarge hlt.not_ge

theorem Rounds.hasValue_of_grid (h : Rounds x a) (hx : Grid x) (hlt : x < 2 ^ 1024) :
    HasValue a x := by
  obtain ⟨v, hv, hresult⟩ := h
  obtain rfl := hv.eq_of_grid hx
  exact hresult.hasValue_or.resolve_right fun hinfinite => hinfinite.1.not_gt hlt

theorem HasValue.div_of_one (ha : HasValue a x) (hb : HasValue b 1) : HasValue (a / b) x := by
  have hrounds := ha.div hb one_pos
  rw [div_one] at hrounds
  exact hrounds.hasValue_of_grid (Holds.grid ha) ha.lt

theorem tiny_le (hk : k ≤ 1074) : tiny ≤ 1 / 2 ^ k := by
  rw [tiny, one_div, ← zpow_natCast, ← zpow_neg]
  exact zpow_le_zpow_right₀ one_le_two (by omega)

theorem two_pow_mul_tiny_le {j : Nat} (hk : j + k ≤ 1074) : 2 ^ j * tiny ≤ 1 / 2 ^ k := by
  have hle := tiny_le hk
  rwa [pow_add, ← div_div, div_right_comm, le_div_iff₀' (pow_pos two_pos j)] at hle

end Room

section Naturals

variable {n i : Nat}

theorem rounds_toFloat {w : UInt64} (hw : 0 < w.toNat) :
    ∃ v, HasValue w.toFloat v ∧ Faithful w.toNat v := by
  obtain ⟨v, hv, hholds⟩ := exists_round hw 0
  rw [zpow_zero, mul_one] at hv
  have hresult : Result v (Float.Model.pack (UnpackedFloat.ofUInt64 Format.binary64 w)).unpack :=
    ofUInt64_eq_round hw ▸ hholds.pack
  have hrounds : Rounds w.toNat w.toFloat := ⟨v, hv, hresult⟩
  exact hrounds.hasValue (k := 64) (by norm_num) (by exact_mod_cast w.toNat_lt.le)

theorem rounds_ofNat (n : Nat) : Rounds n (Float.ofNat n) := by
  rcases Nat.eq_zero_or_pos n with rfl | hn
  · have hzero : Holds 0 (.zero .positive) := .zero _ rfl
    exact ⟨0, by exact_mod_cast hzero.faithful, .finite _ (by norm_num) hzero⟩
  · change ∃ v, Faithful n v ∧ Result v (Float.ofScientific n false 0).toModel.unpack
    rw [Float.ofScientific]
    split
    · next hsmall =>
      have hw : n.toUInt64.toNat = n := Nat.mod_eq_of_lt (by omega)
      obtain ⟨v, hvalue, hv⟩ := rounds_toFloat (w := n.toUInt64) (hw.symm ▸ hn)
      rw [hw] at hv
      -- the factor one takes nothing away
      obtain ⟨v', hv', hresult⟩ := hvalue.mul hasValue_one
      rw [mul_one] at hv'
      obtain rfl := hv'.eq_of_grid (Holds.grid hvalue)
      exact ⟨v', hv, hresult⟩
    · have hvalue : ((n <<< 53 * 10 ^ 0 : Nat) * 2 ^ (-53 + 0 : Int) : ℚ) = n := by
        have hplace : (-53 + 0 : Int) = 0 - (53 : Nat) := rfl
        rw [pow_zero, mul_one, hplace, shiftLeft_mul_zpow, zpow_zero, mul_one]
      have hlog := log2_shiftLeft hn 53
      obtain ⟨v, hv, hholds⟩ := exists_roundWithAccuracy
        (approximates_exact (n <<< 53 * 10 ^ 0) (-53 + 0)) (by rw [pow_zero, mul_one, hlog]; omega)
      refine ⟨v, hvalue ▸ hv, ?_⟩
      change Result v (Float.Model.pack (UnpackedFloat.ofScientific Format.binary64 n 0)).unpack
      rw [ofScientific_eq_round hn]
      exact hholds.pack

theorem hasValue_ofNat (hn : n < 2 ^ 53) : HasValue (Float.ofNat n) n :=
  (rounds_ofNat n).hasValue_of_grid ⟨n, 0, hn, by norm_num, by rw [zpow_zero, mul_one]⟩
    (lt_of_lt_of_le (by exact_mod_cast hn) (pow_le_pow_right₀ one_le_two (by norm_num : 53 ≤ 1024)))

theorem hasValue_two_pow {k : Nat} (hk : k < 1024) : HasValue (Float.ofNat (2 ^ k)) (2 ^ k) := by
  have hrounds := rounds_ofNat (2 ^ k)
  rw [Nat.cast_pow, Nat.cast_ofNat] at hrounds
  exact hrounds.hasValue_of_grid (grid_two_pow k) (pow_lt_pow_right₀ one_lt_two hk)

end Naturals

section Multiples

variable {n i : Nat}

theorem exists_ofNat_sub_one (hn : 2 ≤ n) (hn' : n < 2 ^ 64) :
    ∃ w, HasValue (Float.ofNat n - Float.ofNat 1) w ∧ (n - 1 : ℚ) ≤ (1 + 1 / 2 ^ 48) * w := by
  have htwo : (2 : ℚ) ≤ n := by exact_mod_cast hn
  have htiny : tiny ≤ 1 / 2 ^ 52 := tiny_le (by norm_num)
  have hle : (n : ℚ) ≤ 2 ^ 64 := by exact_mod_cast hn'.le
  obtain ⟨v, hvalue, hv⟩ := (rounds_ofNat n).hasValue (by norm_num) hle
  have hone : 1 ≤ v := hv.le_of_grid (Holds.grid hasValue_one) (by linarith)
  have hv_le : v ≤ 2 ^ 64 := hv.ge_of_grid (grid_two_pow 64) hle
  obtain ⟨w, hwvalue, hw⟩ :=
    (hvalue.sub hasValue_one hone).hasValue (k := 64) (by norm_num) (by linarith)
  have hbelow := hv.slack_ge
  have hbelow' := hw.slack_ge
  have hnonneg := hwvalue.nonneg
  refine ⟨w, hwvalue, ?_⟩
  norm_num [slack] at hbelow hbelow' htiny ⊢
  linarith

theorem exists_ofNat_le (hn : 2 ≤ n) (hn' : n < 2 ^ 64) (hi : i < n) :
    ∃ v, HasValue (Float.ofNat i) v ∧ v ≤ (1 + 1 / 2 ^ 50) * (n - 1) := by
  have htwo : (2 : ℚ) ≤ n := by exact_mod_cast hn
  have htiny : tiny ≤ 1 / 2 ^ 52 := tiny_le (by norm_num)
  have hlast : (i : ℚ) ≤ n - 1 := by
    rw [le_sub_iff_add_le]
    exact_mod_cast hi
  obtain ⟨v, hvalue, hv⟩ := (rounds_ofNat i).hasValue (k := 64) (by norm_num)
    (by exact_mod_cast (hi.trans hn').le)
  have habove := hv.le_slack
  refine ⟨v, hvalue, ?_⟩
  norm_num [slack] at habove htiny ⊢
  linarith

theorem mul_even_part_le {x v w s : ℚ} (hn : (n : ℚ) ≤ 2 ^ 64) (hlast : (1 : ℚ) ≤ n - 1)
    (hx : 0 ≤ x) (hwpos : 0 < w) (hw : (n - 1 : ℚ) ≤ (1 + 1 / 2 ^ 48) * w)
    (hv : v ≤ (1 + 1 / 2 ^ 50) * (n - 1)) (hspos : 0 ≤ s) (hs : s ≤ slack * (x / w) + tiny) :
    v * s ≤ (1 + 1 / 2 ^ 46) * x + 2 ^ 65 * tiny := by
  have hquotient : (n - 1) * (x / w) ≤ (1 + 1 / 2 ^ 48) * x := by
    rw [mul_div_assoc', div_le_iff₀ hwpos]
    calc (n - 1) * x ≤ (1 + 1 / 2 ^ 48) * w * x := mul_le_mul_of_nonneg_right hw hx
      _ = (1 + 1 / 2 ^ 48) * x * w := by ring
  have hsteps : (n - 1 : ℚ) ≤ 2 ^ 64 := by linarith
  have hfactor : 0 ≤ (1 + 1 / 2 ^ 50) * slack := by norm_num [slack]
  calc v * s ≤ (1 + 1 / 2 ^ 50) * (n - 1) * (slack * (x / w) + tiny) :=
        mul_le_mul hv hs hspos (by linarith)
    _ = (1 + 1 / 2 ^ 50) * slack * ((n - 1) * (x / w)) + (1 + 1 / 2 ^ 50) * ((n - 1) * tiny) := by
        ring
    _ ≤ (1 + 1 / 2 ^ 50) * slack * ((1 + 1 / 2 ^ 48) * x) +
        (1 + 1 / 2 ^ 50) * (2 ^ 64 * tiny) :=
        add_le_add (mul_le_mul_of_nonneg_left hquotient hfactor)
          (mul_le_mul_of_nonneg_left (mul_le_mul_of_nonneg_right hsteps tiny_pos.le)
            (by norm_num))
    _ ≤ (1 + 1 / 2 ^ 46) * x + 2 ^ 65 * tiny := by
        have := tiny_pos
        norm_num [slack]
        linarith

theorem exists_multiple (ha : HasValue a x) (hx : x ≤ 2 ^ 1021) (hn : 2 ≤ n) (hn' : n < 2 ^ 64)
    (hi : i < n) : ∃ y, HasValue (Float.ofNat i * (a / (Float.ofNat n - Float.ofNat 1))) y ∧
      y ≤ (1 + 1 / 2 ^ 40) * x + 1 / 2 ^ 1000 := by
  obtain ⟨w, hwvalue, hw⟩ := exists_ofNat_sub_one hn hn'
  obtain ⟨v, hvvalue, hv⟩ := exists_ofNat_le hn hn' hi
  have htwo : (2 : ℚ) ≤ n := by exact_mod_cast hn
  have hlast : (1 : ℚ) ≤ n - 1 := by linarith
  have hwpos : 0 < w := by
    by_contra hnot
    have := hwvalue.nonneg
    linarith
  have hxnonneg := ha.nonneg
  have hpart : x / w ≤ 2 * x := by
    rw [div_le_iff₀ hwpos, mul_right_comm, mul_comm]
    exact le_mul_of_one_le_right hxnonneg (by linarith)
  have hfirst : (2 : ℚ) ^ 1022 = 2 * 2 ^ 1021 := pow_succ' _ _
  have hsecond : (2 : ℚ) ^ 1023 = 2 * (2 * 2 ^ 1021) := by rw [pow_succ' _ 1022, hfirst]
  have hlarge : (1 : ℚ) ≤ 2 ^ 1021 := one_le_pow₀ one_le_two
  -- `linarith` would expand the power, of which only its doubles matter
  generalize (2 : ℚ) ^ 1021 = room at *
  obtain ⟨s, hsvalue, hs⟩ := (ha.div hwvalue hwpos).hasValue (k := 1022) (by norm_num)
    (by rw [hfirst]; linarith)
  have hproduct : v * s ≤ (1 + 1 / 2 ^ 46) * x + 2 ^ 65 * tiny :=
    mul_even_part_le (by exact_mod_cast hn'.le) hlast hxnonneg hwpos hw hv hsvalue.nonneg
      hs.le_slack
  have htiny : 2 ^ 66 * tiny ≤ 1 / 2 ^ 1000 := two_pow_mul_tiny_le (by norm_num)
  have hpos := tiny_pos
  have hsmall : 2 ^ 66 * tiny ≤ 1 :=
    htiny.trans (div_le_one_of_le₀ (one_le_pow₀ one_le_two) (by positivity))
  obtain ⟨y, hyvalue, hy⟩ := (hvvalue.mul hsvalue).hasValue (k := 1023) (by norm_num) (by
    rw [hsecond]
    norm_num at hproduct hsmall
    linarith only [hproduct, hsmall, hx, hlarge, hxnonneg])
  refine ⟨y, hyvalue, ?_⟩
  have habove := hy.le_slack
  generalize (1 : ℚ) / 2 ^ 1000 = least at *
  norm_num [slack] at habove hproduct htiny ⊢
  linarith only [habove, hproduct, htiny, hpos, hxnonneg]

end Multiples

section Sums

theorem HasValue.zero_le (h : HasValue a x) : 0 ≤ a := by
  have hzero : HasValue 0 0 := .zero _ rfl
  exact (hzero.le_iff h).2 h.nonneg

theorem exists_hasValue_abs (h : a.isFinite = true) : ∃ v, HasValue a.abs v := by
  have hstored : Stored a.toModel.unpack := stored_unpack _
  change a.toModel.unpack.isFinite = true at h
  change ∃ v, Holds v (Float.Model.pack a.toModel.unpack.abs).unpack
  generalize a.toModel.unpack = u at *
  cases u with
  | notANumber | infinity s => cases h
  | zero s => cases s <;> exact ⟨0, .zero .positive rfl⟩
  | finite s m e hm =>
    have hpack := unpack_pack_of_stored (s := .positive) (h := hm) hstored
    change ∃ v, Holds v (Float.Model.pack (.finite .positive m e hm)).unpack
    rw [hpack]
    exact ⟨_, holds_of_digits hm hstored.1 hstored.2.2.1 hstored.2.2.2⟩

theorem HasValue.mul_infinity (ha : HasValue a x) (hx : 0 < x)
    (hb : b.toModel.unpack = .infinity .positive) : (a * b).toModel.unpack = .infinity .positive := by
  have hproduct : UnpackedFloat.mul Format.binary64 a.toModel.unpack b.toModel.unpack =
      .infinity .positive := by
    rw [hb]
    unfold HasValue at ha
    generalize a.toModel.unpack = u at *
    cases ha with
    | zero s hv => exact absurd hv hx.ne'
    | finite m e h hcell hv => rfl
  rw [unpack_mul, hproduct]
  rfl

theorem HasValue.div_infinity (ha : HasValue a x) (hb : b.toModel.unpack = .infinity .positive) :
    HasValue (a / b) 0 := by
  have hquotient : ∃ s, UnpackedFloat.div Format.binary64 a.toModel.unpack b.toModel.unpack =
      .zero s := by
    rw [hb]
    unfold HasValue at ha
    generalize a.toModel.unpack = u at *
    cases ha <;> exact ⟨_, rfl⟩
  obtain ⟨s, hs⟩ := hquotient
  rw [HasValue, unpack_div, hs]
  cases s <;> exact .zero _ rfl

theorem exists_result_div (ha : HasValue a x) (hb : Result y b.toModel.unpack)
    (hy : 0 < y) : ∃ v, 0 ≤ v ∧ Result v (a / b).toModel.unpack := by
  rcases hb.hasValue_or with hb | ⟨-, hb⟩
  · obtain ⟨v, hv, hresult⟩ := ha.div hb hy
    have hzero : Holds 0 (.zero .positive) := .zero _ rfl
    exact ⟨v, hv.le_of_grid hzero.grid (div_nonneg ha.nonneg hy.le), hresult⟩
  · have hvalue := ha.div_infinity hb
    exact ⟨0, le_rfl, .finite _ hvalue.lt hvalue⟩

theorem div_le_div_of_two_mul_le {c d : Float} (ha : HasValue a x) (hc : HasValue c y)
    (h : 2 * x ≤ y) (hone : 1 ≤ y) (hb : Result v b.toModel.unpack)
    (hd : Result w d.toModel.unpack) (hv : 0 < v) (hvw : v ≤ w) : a / d ≤ c / b := by
  rcases hd.hasValue_or with hdvalue | ⟨-, hinfinity⟩
  · have hbvalue : HasValue b v := by
      rcases hb.hasValue_or with hbvalue | ⟨hlarge, -⟩
      · exact hbvalue
      · exact absurd (hlarge.trans hvw) hdvalue.lt.not_ge
    obtain ⟨p, hp, hsmaller⟩ := ha.div hdvalue (hv.trans_le hvw)
    obtain ⟨q, hq, hlarger⟩ := hc.div hbvalue hv
    refine Result.le hsmaller hlarger (hp.le_of_two_mul_le hq ?_ ?_)
    · calc 2 * (x / w) ≤ 2 * (x / v) :=
            mul_le_mul_of_nonneg_left (div_le_div_of_nonneg_left ha.nonneg hv hvw) two_pos.le
        _ = 2 * x / v := (mul_div_assoc _ _ _).symm
        _ ≤ y / v := div_le_div_of_nonneg_right h hv.le
    · rw [le_div_iff₀ hv]
      calc tiny * v ≤ 1 / 2 ^ 1024 * 2 ^ 1024 :=
            mul_le_mul (tiny_le (by norm_num)) hbvalue.lt.le hv.le (by positivity)
        _ = 1 := one_div_mul_cancel (by positivity)
        _ ≤ y := hone
  · obtain ⟨q, hq, hresult⟩ := exists_result_div hc hb hv
    have hzero := ha.div_infinity hinfinity
    exact Result.le (.finite _ hzero.lt hzero) hresult hq

theorem add_infinity {u : UnpackedFloat} (h : Holds x u) :
    UnpackedFloat.add Format.binary64 u (.infinity .positive) = .infinity .positive := by
  cases h <;> rfl

theorem infinity_add {u : UnpackedFloat} (h : Holds x u) :
    UnpackedFloat.add Format.binary64 (.infinity .positive) u = .infinity .positive := by
  cases h <;> rfl

theorem add_eq_infinity (ha : 0 ≤ a) (hb : 0 ≤ b) (h : a.toModel.unpack = .infinity .positive ∨
    b.toModel.unpack = .infinity .positive) : (a + b).toModel.unpack = .infinity .positive := by
  have hsum : UnpackedFloat.add Format.binary64 a.toModel.unpack b.toModel.unpack =
      .infinity .positive := by
    rcases hasValue_or_of_nonneg ha with ⟨x, hx⟩ | ha
    · rcases hasValue_or_of_nonneg hb with ⟨y, hy⟩ | hb
      · rcases h with h | h
        · exact absurd hx (by rw [HasValue, h]; exact nofun)
        · exact absurd hy (by rw [HasValue, h]; exact nofun)
      · rw [hb, add_infinity hx]
    · rcases hasValue_or_of_nonneg hb with ⟨y, hy⟩ | hb
      · rw [ha, infinity_add hy]
      · rw [ha, hb]
        rfl
  rw [unpack_add, hsum]
  rfl

theorem le_of_infinity (ha : 0 ≤ a) (hb : b.toModel.unpack = .infinity .positive) : a ≤ b := by
  rcases hasValue_or_of_nonneg ha with ⟨v, hv⟩ | ha
  · exact hv.le_infinity hb
  · have hle : a.toModel.unpack.le b.toModel.unpack = true := by rw [ha, hb]; rfl
    exact decide_eq_true hle

theorem le_add_of_nonneg (ha : 0 ≤ a) (hb : 0 ≤ b) : a ≤ a + b ∧ b ≤ a + b := by
  have hinfinite := fun h => add_eq_infinity ha hb h
  rcases hasValue_or_of_nonneg ha with ⟨x, hx⟩ | ha'
  · rcases hasValue_or_of_nonneg hb with ⟨y, hy⟩ | hb'
    · obtain ⟨v, hv, hresult⟩ := hx.add hy
      have hxv : x ≤ v := hv.le_of_grid (Holds.grid hx) (le_add_of_nonneg_right hy.nonneg)
      have hyv : y ≤ v := hv.le_of_grid (Holds.grid hy) (le_add_of_nonneg_left hx.nonneg)
      exact ⟨Result.le (.finite _ hx.lt hx) hresult hxv, Result.le (.finite _ hy.lt hy) hresult hyv⟩
    · exact ⟨le_of_infinity ha (hinfinite (.inr hb')), le_of_infinity hb (hinfinite (.inr hb'))⟩
  · exact ⟨le_of_infinity ha (hinfinite (.inl ha')), le_of_infinity hb (hinfinite (.inl ha'))⟩

theorem le_sum {l : List Float} (h : ∀ c ∈ l, 0 ≤ c) : 0 ≤ sum l ∧ ∀ c ∈ l, c ≤ sum l := by
  induction l using List.reverseRecOn with
  | nil => exact ⟨by decide, by simp⟩
  | append_singleton l c ih =>
    obtain ⟨hnonneg, hall⟩ := ih fun d hd => h d (List.mem_append_left _ hd)
    have hc : 0 ≤ c := h c (by simp)
    obtain ⟨hsum, hlast⟩ := le_add_of_nonneg hnonneg hc
    rw [sum_concat]
    refine ⟨Comparable.le_trans _ _ _ hnonneg hsum, fun d hd => ?_⟩
    obtain hd | rfl : d ∈ l ∨ d = c := by simpa using hd
    · exact Comparable.le_trans _ _ _ (hall d hd) hsum
    · exact hlast

end Sums

end BinaryQuadratic.Coefficient.Binary64

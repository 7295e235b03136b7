import BinaryQuadratic.Proofs.Annealing.Acceptance
import BinaryQuadratic.Proofs.Annealing.RangeEnds
import BinaryQuadratic.Proofs.Coefficient.Binary64.Bounds

/-! Increases that are refused without a draw. Such an increase has a probability below the least
draw other than zero, so that Metropolis' rule refuses it at any of these. A draw may be zero, though,
and then the rule accepts whatever has a probability at all. -/

namespace BinaryQuadratic.Annealing

open Coefficient Binary64 Randomness

section Rule

variable {α γ : Type} [Coefficient α] [Generator γ] {beta change : α}

def AcceptedAt (beta change r : α) : Prop := change ≤ 0 ∨ r < exp (-change * beta)

def draw (k : Nat) : α := ofNat k / ofNat 4503599627370496

def gridStep (g : γ) : Nat := ((Generator.next g).1 >>> 12).toNat

theorem uniform_eq (g : γ) : (uniform g : α × γ).1 = draw (gridStep g) := rfl

theorem accepts_of_limit_lt (h : quotientLt acceptanceLimit beta change = true) (g : γ) :
    accepts beta change g = (false, g) := if_pos h

theorem accepts_iff_of_not_limit_lt (h : ¬quotientLt acceptanceLimit beta change = true) (g : γ) :
    (accepts beta change g).1 = true ↔ AcceptedAt beta change (uniform g).1 := by
  rw [accepts, if_neg h, AcceptedAt]
  split
  · next hle => simp [hle]
  · next hle => simp [hle]

/-- A rule that refuses beyond the limit is Metropolis' rule but for the draws that this accepts. -/
theorem accepts_iff_acceptedAt_iff (g : γ) :
    ((accepts beta change g).1 = true ↔ AcceptedAt beta change (uniform g).1) ↔
      ¬(quotientLt acceptanceLimit beta change = true ∧ AcceptedAt beta change (uniform g).1) := by
  by_cases h : quotientLt acceptanceLimit beta change = true
  · simp [accepts_of_limit_lt h, h]
  · simp [accepts_iff_of_not_limit_lt h, h]

end Rule

section Exact

variable {beta change : ℝ}

theorem gridStep_lt {γ : Type} [Generator γ] (g : γ) : gridStep g < 2 ^ 52 := by
  have hbits : ((Generator.next g).1 >>> 12).toNat = (Generator.next g).1.toNat >>> 12 := rfl
  rw [gridStep, hbits, Nat.shiftRight_eq_div_pow]
  have := (Generator.next g).1.toNat_lt
  omega

/-- At an infinite temperature each change is accepted. -/
theorem accepts_zero {γ : Type} [Generator γ] (change : ℝ) (g : γ) :
    (accepts 0 change g).1 = true := by
  have hlimit : ¬quotientLt acceptanceLimit 0 change = true := by simp
  rw [accepts_iff_of_not_limit_lt hlimit, AcceptedAt, mul_zero, uniform_eq]
  have hexp : (exp 0 : ℝ) = 1 := Real.exp_zero
  have hstep : (gridStep g : ℝ) < 2 ^ 52 := by exact_mod_cast gridStep_lt g
  refine .inr ?_
  rw [hexp, draw, div_lt_one (by norm_num)]
  norm_num at hstep ⊢
  exact hstep

theorem exp_lt_least_draw (hbeta : 0 < beta) (h : acceptanceLimit / beta < change) :
    Real.exp (-change * beta) < 1 / 2 ^ 52 := by
  have hlimit : Real.log (2 ^ 52) < acceptanceLimit := by
    have hlog := Real.log_two_lt_d9
    rw [Real.log_pow]
    norm_num [acceptanceLimit]
    linarith
  have hchange : acceptanceLimit < beta * change := by
    rwa [mul_comm, ← div_lt_iff₀ hbeta]
  exact not_le.1 fun hle =>
    (hlimit.trans hchange).not_ge ((one_div_le_exp_iff (by positivity)).1 hle)

theorem acceptedAt_draw_iff (hbeta : 0 < beta) (h : acceptanceLimit / beta < change) (k : Nat) :
    AcceptedAt beta change (draw k) ↔ k = 0 := by
  have hpos : 0 < change := (div_pos (by norm_num [acceptanceLimit]) hbeta).trans h
  have hdraw : (draw k : ℝ) = k / 2 ^ 52 := by norm_num [draw]
  rw [AcceptedAt, hdraw, or_iff_right hpos.not_ge]
  constructor
  · intro hlt
    by_contra hne
    have hone : (1 : ℝ) ≤ k := by exact_mod_cast Nat.one_le_iff_ne_zero.2 hne
    exact ((div_le_div_of_nonneg_right hone (by positivity)).trans_lt hlt).not_gt
      (exp_lt_least_draw hbeta h)
  · rintro rfl
    rw [Nat.cast_zero, zero_div]
    exact Real.exp_pos _

end Exact

section Doubles

open Float.Model Float.Model.UnpackedFloat

variable {beta change : Float}

theorem unpack_acceptanceLimit : (acceptanceLimit : Float).toModel.unpack =
    .finite .positive 6243314830675815 (-47) (by decide) := rfl

theorem limit_large : (44 : ℚ) ≤ (6243314830675815 : Nat) * 2 ^ (-47 : Int) := by
  norm_num

theorem value_le_of_stored {m : Nat} {e : Int} {h : 0 < m} (hu : Stored (.finite .positive m e h)) :
    (m * 2 ^ e : ℚ) ≤ 2 ^ (1024 : Int) := by
  obtain ⟨-, he, hm, -⟩ := hu
  have hm' : (m : ℚ) ≤ 2 ^ (53 : Int) := by exact_mod_cast hm.le
  calc (m * 2 ^ e : ℚ) ≤ 2 ^ (53 : Int) * 2 ^ (971 : Int) :=
        mul_le_mul hm' (zpow_le_zpow_right₀ one_le_two he) (zpow_pos two_pos e).le
          (zpow_pos two_pos _).le
    _ = 2 ^ (1024 : Int) := (zpow_add₀ two_ne_zero 53 971).symm

theorem beyond_threshold {m : Nat} {e : Int} {hm : 0 < m}
    (hbeta : beta.toModel.unpack = .finite .positive m e hm) :
    Beyond .positive (43 / (m * 2 ^ e)) (acceptanceLimit / beta : Float).toModel.unpack := by
  have hpos : (0 : ℚ) < m * 2 ^ e := value_pos hm
  have hstored : Stored beta.toModel.unpack := stored_unpack _
  rw [hbeta] at hstored
  have hdiv : Beyond (.positive / .positive) (43 / (m * 2 ^ e)) (UnpackedFloat.div
      Format.binary64 (.finite .positive 6243314830675815 (-47) (by decide))
      (.finite .positive m e hm)) := by
    refine .div _ _ _ _ ?_ ?_
    · rw [le_div_iff₀ hpos]
      calc (2 : ℚ) ^ (-1020 : Int) * (m * 2 ^ e) ≤ 2 ^ (-1020 : Int) * 2 ^ (1024 : Int) :=
            mul_le_mul_of_nonneg_left (value_le_of_stored hstored) (zpow_pos two_pos _).le
        _ = 2 ^ (4 : Int) := (zpow_add₀ two_ne_zero (-1020) 1024).symm
        _ ≤ 44 := by norm_num
        _ ≤ _ := limit_large
    · rw [← mul_div_assoc]
      refine div_le_div_of_nonneg_right (le_trans ?_ limit_large) hpos.le
      norm_num [slack]
  have hunpack : (acceptanceLimit / beta : Float).toModel.unpack = (Float.Model.pack
      (UnpackedFloat.div Format.binary64 (acceptanceLimit : Float).toModel.unpack
        beta.toModel.unpack)).unpack := rfl
  rw [hunpack, unpack_acceptanceLimit, hbeta]
  exact hdiv.pack

theorem beyond_exponent {m : Nat} {e : Int} {hm : 0 < m}
    (hbeta : beta.toModel.unpack = .finite .positive m e hm)
    (hchange : Beyond .positive (43 / (m * 2 ^ e)) change.toModel.unpack) :
    Beyond .negative 39 (-change * beta).toModel.unpack := by
  have hvalue : 43 / (m * 2 ^ e) * (m * 2 ^ e) = (43 : ℚ) := div_mul_cancel₀ _ (value_pos hm).ne'
  have hneg : Beyond .negative (43 / (m * 2 ^ e)) (-change).toModel.unpack := hchange.neg.pack
  have hmul : Beyond (.negative * .positive) 39 (UnpackedFloat.mul Format.binary64
      (-change).toModel.unpack (.finite .positive m e hm)) := by
    refine hneg.mul _ hm ?_ ?_
    · rw [hvalue]
      exact (zpow_le_one_of_nonpos₀ one_le_two (by decide)).trans (by norm_num)
    · rw [hvalue]
      norm_num [slack]
  rw [unpack_mul, hbeta]
  exact hmul.pack

theorem neg_mul_le_of_finite {m : Nat} {e : Int} {hm : 0 < m}
    (hbeta : beta.toModel.unpack = .finite .positive m e hm)
    (h : acceptanceLimit / beta < change) : -change * beta ≤ -38 := by
  have hstored : Stored beta.toModel.unpack := stored_unpack _
  rw [hbeta] at hstored
  have hleast : (2 : ℚ) ^ (-1022 : Int) ≤ 43 / (m * 2 ^ e) := by
    rw [le_div_iff₀ (value_pos hm)]
    calc (2 : ℚ) ^ (-1022 : Int) * (m * 2 ^ e) ≤ 2 ^ (-1022 : Int) * 2 ^ (1024 : Int) :=
          mul_le_mul_of_nonneg_left (value_le_of_stored hstored) (zpow_pos two_pos _).le
      _ = 2 ^ (2 : Int) := (zpow_add₀ two_ne_zero (-1022) 1024).symm
      _ ≤ 43 := by norm_num
  have hchange := (beyond_threshold hbeta).of_lt (stored_unpack _) (stored_unpack _) hleast
    (of_decide_eq_true h)
  have hbound : (-38 : Float).toModel.unpack =
      .finite .negative (19 * 2 ^ 48) (-47) (by decide) := rfl
  exact le_neg_of_beyond hbound (beyond_exponent hbeta hchange) (by norm_num)

theorem neg_mul_le_of_infinity (hbeta : beta.toModel.unpack = .infinity .positive)
    (h : acceptanceLimit / beta < change) : -change * beta ≤ -38 := by
  have hthreshold : (acceptanceLimit / beta : Float).toModel.unpack = .zero .positive := by
    rw [unpack_div, hbeta, unpack_acceptanceLimit]
    rfl
  have hlt : (acceptanceLimit / beta : Float).toModel.unpack.lt change.toModel.unpack = true :=
    of_decide_eq_true h
  rw [hthreshold] at hlt
  have hneg : (∃ m e hm, (-change).toModel.unpack = .finite .negative m e hm) ∨
      (-change).toModel.unpack = .infinity .negative := by
    have hstored : Stored change.toModel.unpack := stored_unpack _
    have hpositive := positive_of_lt hlt
    change (∃ m e hm, (Float.Model.pack change.toModel.unpack.neg).unpack =
      .finite .negative m e hm) ∨
        (Float.Model.pack change.toModel.unpack.neg).unpack = .infinity .negative
    generalize change.toModel.unpack = u at *
    cases hpositive with
    | infinity => exact .inr rfl
    | finite m e hm => exact .inl ⟨m, e, hm, unpack_pack_of_stored (s := .negative) hstored⟩
  have hproduct : (-change * beta).toModel.unpack = .infinity .negative := by
    have hmul : UnpackedFloat.mul Format.binary64 (-change).toModel.unpack (.infinity .positive) =
        .infinity .negative := by
      obtain ⟨m, e, hm, hu⟩ | hu := hneg <;> rw [hu] <;> rfl
    rw [unpack_mul, hbeta, hmul]
    rfl
  have hle : (-change * beta).toModel.unpack.le (-38 : Float).toModel.unpack = true := by
    rw [hproduct]
    rfl
  exact decide_eq_true hle

theorem neg_mul_le (hbeta : 0 < beta) (h : acceptanceLimit / beta < change) :
    -change * beta ≤ -38 := by
  have hpositive : Positive beta.toModel.unpack := positive_of_lt (of_decide_eq_true hbeta)
  generalize hu : beta.toModel.unpack = u at hpositive
  cases hpositive with
  | finite m e hm => exact neg_mul_le_of_finite hu h
  | infinity => exact neg_mul_le_of_infinity hu h

theorem le_draw {k : Nat} (hk : 0 < k) : (1 / 9007199254740992 : Float) ≤ draw k := by
  have hnumerator := large_ofNat hk
  have hdenominator : (Float.ofNat 4503599627370496).toModel.unpack =
      .finite .positive (2 ^ 52) 0 (by decide) := rfl
  have hquotient : Beyond .positive (3 / 2 ^ 54) (UnpackedFloat.div Format.binary64
      (Float.ofNat k).toModel.unpack (Float.ofNat 4503599627370496).toModel.unpack) := by
    rw [hdenominator]
    generalize (Float.ofNat k).toModel.unpack = u at hnumerator
    cases hnumerator with
    | infinity => exact .infinity
    | finite m e h hm he =>
      have hone : (1 : ℚ) ≤ m * 2 ^ e := by
        refine (one_le_zpow₀ one_le_two ?_).trans (two_zpow_log2_le h)
        omega
      refine Beyond.div .positive .positive h (by decide) ?_ ?_
      · rw [le_div_iff₀ (value_pos (by decide))]
        calc (2 : ℚ) ^ (-1020 : Int) * ((2 ^ 52 : Nat) * 2 ^ (0 : Int))
            = 2 ^ (-1020 : Int) * 2 ^ (52 : Int) := by norm_num
          _ = 2 ^ (-968 : Int) := (zpow_add₀ two_ne_zero (-1020) 52).symm
          _ ≤ 1 := zpow_le_one_of_nonpos₀ one_le_two (by decide)
          _ ≤ m * 2 ^ e := hone
      · rw [le_div_iff₀ (value_pos (by decide))]
        exact le_trans (by norm_num [slack]) hone
  have hbound : (1 / 9007199254740992 : Float).toModel.unpack =
      .finite .positive (2 ^ 52) (-105) (by decide) := rfl
  exact le_of_beyond hbound hquotient.pack (by norm_num)

variable {exp log : Float → Float}

theorem acceptedAt_draw_iff_of_small (hexp : ∀ x : Float, x ≤ -38 → exp x ≤ 1 / 9007199254740992)
    (hbeta : 0 < beta) (h : acceptanceLimit / beta < change) (k : Nat) :
    letI := withFunctions exp log
    AcceptedAt beta change (draw k) ↔ k = 0 ∧ 0 < exp (-change * beta) := by
  have hsmall := hexp _ (neg_mul_le hbeta h)
  have hpos : ¬change ≤ 0 := by
    intro hle
    have hnotBelow := (positive_of_lt (of_decide_eq_true hbeta)).notBelow
    rw [((acceptanceLimit_div_lt_iff hnotBelow hle).1 h).1] at hbeta
    exact absurd hbeta (by decide)
  show change ≤ 0 ∨ draw k < exp (-change * beta) ↔ _
  rw [or_iff_right hpos]
  rcases Nat.eq_zero_or_pos k with rfl | hk
  · have hzero : (draw 0 : Float) = 0 := by decide
    rw [hzero, and_iff_right rfl]
  · refine iff_of_false (fun hlt => ?_) fun hand => hk.ne' hand.1
    have hle : exp (-change * beta) ≤ draw k := Comparable.le_trans _ _ _ hsmall (le_draw hk)
    exact ((Comparable.lt_iff _ _).1 hlt).2 hle

end Doubles

/-- A shortcut that refuses increases beyond the limit differs from Metropolis' rule at a draw of zero
only. There the rule accepts any increase whose probability is not computed as zero. The exponential
of doubles is asked for no more than to be small where it should be. -/
theorem limit_differs_at_zero_draw {γ : Type} [Generator γ] (g : γ) :
    (∀ beta change : ℝ, 0 < beta →
      (acceptanceLimit / beta < change → ∀ k, AcceptedAt beta change (draw k) ↔ k = 0) ∧
      (((accepts beta change g).1 = true ↔ AcceptedAt beta change (uniform g).1) ↔
        ¬(acceptanceLimit / beta < change ∧ gridStep g = 0))) ∧
    ∀ exp log : Float → Float, (∀ x : Float, x ≤ -38 → exp x ≤ 1 / 9007199254740992) →
      letI := withFunctions exp log
      ∀ beta change : Float, 0 < beta →
        (acceptanceLimit / beta < change → ∀ k,
          AcceptedAt beta change (draw k) ↔ k = 0 ∧ 0 < exp (-change * beta)) ∧
        (((accepts beta change g).1 = true ↔ AcceptedAt beta change (uniform g).1) ↔
          ¬(acceptanceLimit / beta < change ∧ gridStep g = 0 ∧ 0 < exp (-change * beta))) := by
  constructor
  · intro beta change hbeta
    refine ⟨acceptedAt_draw_iff hbeta, (accepts_iff_acceptedAt_iff g).trans (not_congr ?_)⟩
    rw [uniform_eq, quotientLt_iff, and_iff_right hbeta.ne']
    exact and_congr_right fun h => acceptedAt_draw_iff hbeta h _
  · intro exp log hexp
    let _ := withFunctions exp log
    intro beta change hbeta
    refine ⟨acceptedAt_draw_iff_of_small hexp hbeta,
      (accepts_iff_acceptedAt_iff g).trans (not_congr ?_)⟩
    have hlimit : quotientLt acceptanceLimit beta change = true ↔ acceptanceLimit / beta < change :=
      quotientLt_iff_div_lt
    rw [uniform_eq, hlimit]
    exact and_congr_right fun h => acceptedAt_draw_iff_of_small hexp hbeta h _

theorem limit_differs_at_zero_draw_first_seed :
    let g : Pcg64 := Seedable.ofSeed 1
    let exp : Float → Float := fun _ => 2.862518580549394e-20
    gridStep g ≠ 0 ∧ (0 : ℝ) < 45 ∧ (acceptanceLimit : ℝ) / 45 < 1 ∧
      ((accepts (45 : ℝ) 1 g).1 = true ↔ AcceptedAt (45 : ℝ) 1 (uniform g).1) ∧
      (∀ x : Float, x ≤ -38 → exp x ≤ 1 / 9007199254740992) ∧ (0 : Float) < 45 ∧
      (acceptanceLimit : Float) / 45 < 1 ∧
      letI := withFunctions exp Float.log
      (∀ k, AcceptedAt (45 : Float) 1 (draw k) ↔ k = 0 ∧ 0 < exp (-1 * 45)) ∧
        ((accepts (45 : Float) 1 g).1 = true ↔ AcceptedAt (45 : Float) 1 (uniform g).1) := by
  intro g exp
  have hdraw : gridStep g ≠ 0 := by decide
  have hlimit : (acceptanceLimit : ℝ) / 45 < 1 := by norm_num [acceptanceLimit]
  have hlimit' : (acceptanceLimit : Float) / 45 < 1 := by decide
  have hexp : ∀ x : Float, x ≤ -38 → exp x ≤ 1 / 9007199254740992 := fun _ _ => by decide
  obtain ⟨hreal, hdouble⟩ := limit_differs_at_zero_draw g
  obtain ⟨-, hdecides⟩ := hreal 45 1 (by norm_num)
  obtain ⟨hdraws, hdecides'⟩ := hdouble exp Float.log hexp 45 1 (by decide)
  exact ⟨hdraw, by norm_num, hlimit, hdecides.2 fun h => hdraw h.2, hexp, by decide, hlimit',
    hdraws hlimit', hdecides'.2 fun h => hdraw h.2.1⟩

/-- A source whose next draw is zero, and an increase with a probability of `exp (-45)`. -/
theorem increase_refused_at_zero_draw :
    let g : Pcg64 := ⟨0xa0896adc050644ed98abc8b0716eac8d⟩
    (0 : ℝ) < 45 ∧ (acceptanceLimit : ℝ) / 45 < 1 ∧ (uniform g : ℝ × Pcg64).1 = 0 ∧
      AcceptedAt (45 : ℝ) 1 (uniform g).1 ∧ accepts (45 : ℝ) 1 g = (false, g) := by
  intro g
  have hlimit : (acceptanceLimit : ℝ) / 45 < 1 := by norm_num [acceptanceLimit]
  have hdraw : gridStep g = 0 := by decide
  have hbeyond : quotientLt (acceptanceLimit : ℝ) 45 1 = true :=
    quotientLt_iff.2 ⟨by norm_num, hlimit⟩
  refine ⟨by norm_num, hlimit, ?_, ?_, accepts_of_limit_lt hbeyond g⟩
  · rw [uniform_eq, hdraw]
    norm_num [draw]
  · rw [uniform_eq, hdraw]
    exact (acceptedAt_draw_iff (by norm_num) hlimit 0).2 rfl

end BinaryQuadratic.Annealing

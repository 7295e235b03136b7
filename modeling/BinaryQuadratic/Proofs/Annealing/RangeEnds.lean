import Mathlib.Analysis.Complex.ExponentialBounds
import BinaryQuadratic.Annealing.Chain
import BinaryQuadratic.Proofs.Annealing.Range
import BinaryQuadratic.Proofs.Model.History

/-! What the two ends of the automatic range promise. At the hot end every increase is accepted at
least every other time, since no field is larger than the one that this end goes by. The cold end
goes by the smallest bias, but a field may be smaller than that: biases of both signs cancel. An
increase of less than the smallest bias is accepted more often than once in a hundred times, and
there is none if all biases are multiples of the smallest one. -/

namespace BinaryQuadratic

open Coefficient Finset Randomness

section Changes

variable {V α : Type} [Exact α] {m : Model V α}

theorem PackedState.abs_coordinate_le_one (s : PackedState) (t : Vartype) (i : Nat) :
    |(s.coordinate t i : α)| ≤ 1 := by
  rw [coordinate]
  cases t <;> cases s.bit i <;> norm_num [Vartype.value]

theorem Vartype.abs_value_sub_value (t : Vartype) (b : Bool) :
    |((t.value (!b) : Int) : α) - ((t.value b : Int) : α)| = (t.width : α) := by
  cases t <;> cases b <;> norm_num [Vartype.value, Vartype.width]

theorem Model.WellFormed.abs_change (hm : m.WellFormed) {s : PackedState} (hs : s.Fits)
    (hlen : s.len = m.numVariables) {i : Nat} (hi : i < m.numVariables) :
    |m.energyAt (s.toggle i) - m.energyAt s| =
      m.vartype.width * |m.field (s.coordinate m.vartype) i| := by
  rw [hm.energyAt_toggle hs hlen hi, abs_mul, PackedState.coordinate, Vartype.abs_value_sub_value]

end Changes

namespace Annealing

section Multiples

variable {V α : Type} [Exact α] {m : Model V α}

theorem field_multiple (hm : m.WellFormed) {b : α}
    (h : ∀ x ∈ m.coefficients, ∃ k : ℤ, x = k * b) (s : PackedState) (t : Vartype) (i : Nat) :
    ∃ k : ℤ, m.field (s.coordinate t) i = k * b := by
  have hzero : ∃ k : ℤ, (0 : α) = k * b := ⟨0, by simp⟩
  choose p hp using Model.bias_of_coefficients (p := fun x => ∃ k : ℤ, x = k * b) hzero h
  choose w hw using Model.weight_of_coefficients (p := fun x => ∃ k : ℤ, x = k * b) hzero h hm
  refine ⟨p i + ∑ j ∈ range m.numVariables, w i j * t.value (s.bit j), ?_⟩
  push_cast
  rw [Model.field, hp, add_mul, Finset.sum_mul]
  refine congrArg _ (Finset.sum_congr rfl fun j _ => ?_)
  rw [hw, PackedState.coordinate]
  ring

theorem le_abs_of_multiple {b x : α} (hb : 0 < b) {k : ℤ} (h : x = k * b) (hx : x ≠ 0) :
    b ≤ |x| := by
  have hk : k ≠ 0 := by
    rintro rfl
    exact hx (by simp [h])
  have hone : (1 : α) ≤ |(k : α)| := by
    rw [← Int.cast_abs]
    exact_mod_cast Int.one_le_abs hk
  rw [h, abs_mul, abs_of_pos hb]
  exact le_mul_of_one_le_left hb.le hone

end Multiples

section Decisions

variable {γ : Type} [Generator γ] {beta change c : ℝ}

theorem exp_neg_log (hc : 0 < c) : Real.exp (-Real.log c) = 1 / c := by
  rw [Real.exp_neg, Real.exp_log hc, one_div]

theorem exp_le_one_div_iff (hc : 0 < c) :
    Real.exp (-change * beta) ≤ 1 / c ↔ Real.log c ≤ beta * change := by
  rw [← exp_neg_log hc, Real.exp_le_exp, neg_mul, neg_le_neg_iff, mul_comm]

theorem one_div_le_exp_iff (hc : 0 < c) :
    1 / c ≤ Real.exp (-change * beta) ↔ beta * change ≤ Real.log c := by
  rw [← exp_neg_log hc, Real.exp_le_exp, neg_mul, neg_le_neg_iff, mul_comm]

theorem accepts_of_uniform_lt (hbeta : 0 < beta) (h : beta * change ≤ Real.log 2) {g : γ}
    (hr : (uniform g : ℝ × γ).1 < 1 / 2) : (accepts beta change g).1 = true := by
  have hlimit : ¬quotientLt acceptanceLimit beta change = true := by
    rw [quotientLt_iff, and_iff_right hbeta.ne', div_lt_iff₀ hbeta, not_lt, mul_comm]
    refine h.trans (Real.log_two_lt_d9.le.trans ?_)
    norm_num [acceptanceLimit]
  rw [accepts, if_neg hlimit]
  split
  · rfl
  · exact decide_eq_true (hr.trans_le ((one_div_le_exp_iff two_pos).2 h))

theorem uniform_lt_of_accepts (h : Real.log 100 ≤ beta * change) (hchange : 0 < change) {g : γ}
    (haccepts : (accepts beta change g).1 = true) : (uniform g : ℝ × γ).1 < 1 / 100 := by
  unfold accepts at haccepts
  split at haccepts
  · cases haccepts
  · rw [if_neg hchange.not_ge] at haccepts
    exact (of_decide_eq_true haccepts).trans_le ((exp_le_one_div_iff (by norm_num)).2 h)

end Decisions

section Ends

variable {V : Type} {m : Model V ℝ} {hot cold : ℝ}

theorem width_pos (t : Vartype) : (0 : ℝ) < t.width := by
  cases t <;> norm_num [Vartype.width]

theorem exists_isSmallest (hm : m.WellFormed) (h : defaultRange? m = some (hot, cold)) :
    ∃ b, IsSmallest m b ∧ hot = Real.log 2 / (m.vartype.width * maxField m) ∧
      cold = Real.log 100 / (m.vartype.width * b) := by
  rw [defaultRange?_eq hm, Option.map_eq_some_iff] at h
  obtain ⟨b, hb, heq⟩ := h
  obtain ⟨rfl, rfl⟩ := Prod.mk.inj heq
  exact ⟨b, minBias?_eq_some_iff.1 hb, rfl, rfl⟩

theorem hot_pos (hm : m.WellFormed) (h : defaultRange? m = some (hot, cold)) : 0 < hot := by
  obtain ⟨b, hb, rfl, -⟩ := exists_isSmallest hm h
  have hfield : 0 < maxField m := hb.pos.trans_le (hb.le_maxField hm)
  exact div_pos (Real.log_pos one_lt_two) (mul_pos (width_pos _) hfield)

theorem hot_lt_cold (hm : m.WellFormed) (h : defaultRange? m = some (hot, cold)) :
    hot < cold := by
  obtain ⟨b, hb, rfl, rfl⟩ := exists_isSmallest hm h
  have hwidth := width_pos m.vartype
  have hle : m.vartype.width * b ≤ m.vartype.width * maxField m :=
    mul_le_mul_of_nonneg_left (hb.le_maxField hm) hwidth.le
  have hlog : Real.log 2 < Real.log 100 := Real.log_lt_log two_pos (by norm_num)
  calc Real.log 2 / (m.vartype.width * maxField m)
      ≤ Real.log 2 / (m.vartype.width * b) :=
        div_le_div_of_nonneg_left (Real.log_pos one_lt_two).le (mul_pos hwidth hb.pos) hle
    _ < Real.log 100 / (m.vartype.width * b) := div_lt_div_of_pos_right hlog (mul_pos hwidth hb.pos)

theorem validate_range (hhot : 0 < hot) (hcold : hot < cold) (i : Interpolation) :
    (Betas.range hot cold).validate i = .ok () := by
  simp [Betas.validate, hhot.not_gt, hcold.not_gt, hhot.ne']

variable {s : PackedState} {i : Nat}

theorem hot_mul_change_le (hm : m.WellFormed) (h : defaultRange? m = some (hot, cold))
    (hs : s.Fits) (hlen : s.len = m.numVariables) (hi : i < m.numVariables) :
    hot * (m.energyAt (s.toggle i) - m.energyAt s) ≤ Real.log 2 := by
  have hhot := hot_pos hm h
  obtain ⟨b, hb, hhot_eq, -⟩ := exists_isSmallest hm h
  have hmax : 0 < m.vartype.width * maxField m :=
    mul_pos (width_pos _) (hb.pos.trans_le (hb.le_maxField hm))
  have hvalues : ∀ j < m.numVariables, |(s.coordinate m.vartype j : ℝ)| ≤ 1 := fun j _ =>
    s.abs_coordinate_le_one m.vartype j
  have hfield := abs_field_le_maxField hm hvalues hi
  calc hot * (m.energyAt (s.toggle i) - m.energyAt s)
      ≤ hot * (m.vartype.width * maxField m) := by
        refine mul_le_mul_of_nonneg_left ((le_abs_self _).trans ?_) hhot.le
        rw [hm.abs_change hs hlen hi]
        exact mul_le_mul_of_nonneg_left hfield (width_pos _).le
    _ = Real.log 2 := by rw [hhot_eq, div_mul_cancel₀ _ hmax.ne']

/-- There is no range exactly if all biases are zero. The range is one that could be given, and at
its hot end no flip of a variable, in any state, is refused more than every other time. -/
theorem defaultRange?_hot_end [DecidableEq V] (hm : m.Reachable) :
    (defaultRange? m = none ↔ (∀ b ∈ m.biases, b = 0) ∧ ∀ e ∈ m.interactions, e.2.2 = 0) ∧
    ∀ hot cold, defaultRange? m = some (hot, cold) →
      0 < hot ∧ hot < cold ∧ (∀ i, (Betas.range hot cold).validate i = .ok ()) ∧
      ∀ s : PackedState, s.Fits → s.len = m.numVariables → ∀ i < m.numVariables,
        ∃ e e', m.energyOfState? s = some e ∧ m.energyOfState? (s.toggle i) = some e' ∧
          hot * (e' - e) ≤ Real.log 2 ∧ 1 / 2 ≤ Real.exp (-(e' - e) * hot) ∧
          ∀ (γ : Type) [Generator γ] (g : γ),
            (uniform g : ℝ × γ).1 < 1 / 2 → (accepts hot (e' - e) g).1 = true := by
  have hm := hm.wellFormed
  constructor
  · rw [defaultRange?_eq_none_iff hm, Model.coefficients, List.forall_mem_append,
      List.forall_mem_map]
  intro hot cold h
  have hhot := hot_pos hm h
  have hcold := hot_lt_cold hm h
  refine ⟨hhot, hcold, validate_range hhot hcold, fun s hs hlen i hi => ?_⟩
  have hle := hot_mul_change_le hm h hs hlen hi
  exact ⟨_, _, hm.energyOfState?_eq hlen, hm.energyOfState?_eq hlen, hle,
    (one_div_le_exp_iff two_pos).2 hle, fun γ _ g hr => accepts_of_uniform_lt hhot hle hr⟩

theorem defaultRange?_hot_end_two_spins :
    let m : Model Nat ℝ := ((Model.empty .spin).addVariable 5 (-2)).couple 5 1 3
    let s := PackedState.ofBits [true, false]
    m.Reachable ∧ defaultRange? m ≠ none ∧ s.Fits ∧ s.len = m.numVariables ∧ 0 < m.numVariables ∧
      ∃ hot cold, defaultRange? m = some (hot, cold) ∧ hot = Real.log 2 / 10 ∧ hot < cold ∧
        m.energyOfState? s = some (-5) ∧ m.energyOfState? (s.toggle 0) = some 5 ∧
        hot * (5 - -5) ≤ Real.log 2 ∧ 1 / 2 ≤ Real.exp (-(5 - -5) * hot) := by
  intro m s
  have hm : m.Reachable :=
    .addInteraction (.addVariable 5 (-2) (.empty .spin)) (u := 5) (v := 1) (b := 3) rfl
  have hs : s.Fits := PackedState.fits_ofBits _
  obtain ⟨hnone, hsome⟩ := defaultRange?_hot_end hm
  have hne : defaultRange? m ≠ none := by
    intro h
    have hbias : (0 + -2 + 0 : ℝ) = 0 := (hnone.1 h).1 _ (List.mem_cons_self (l := [0 + 0]))
    norm_num at hbias
  obtain ⟨⟨hot, cold⟩, h⟩ := Option.ne_none_iff_exists'.1 hne
  obtain ⟨hpos, hlt, -, hflip⟩ := hsome hot cold h
  obtain ⟨e, e', he, he', hle, hexp, -⟩ := hflip s hs rfl 0 (by decide)
  have hstart : m.energyOfState? (.ofBits [true, false]) = some (-5) := by
    change some (0 + (0 + -2 + 0) * ((1 : Int) : ℝ) + (0 + 3) * ((1 : Int) : ℝ) * ((-1 : Int) : ℝ) +
      (0 + 0) * ((-1 : Int) : ℝ)) = some (-5)
    norm_num
  have hend : m.energyOfState? (PackedState.toggle (.ofBits [true, false]) 0) = some 5 := by
    change some (0 + (0 + -2 + 0) * ((-1 : Int) : ℝ) + (0 + 3) * ((-1 : Int) : ℝ) *
      ((-1 : Int) : ℝ) + (0 + 0) * ((-1 : Int) : ℝ)) = some 5
    norm_num
  have hmax : maxField m = 5 := by
    change maxNum (maxNum 0 (|0 + -2 + 0| + sum [|0 + 3|])) (|0 + 0| + sum [|0 + 3|]) = (5 : ℝ)
    norm_num [maxNum_eq_max]
  have hhot : hot = Real.log 2 / 10 := by
    obtain ⟨-, -, rfl, -⟩ := exists_isSmallest hm.wellFormed h
    rw [hmax]
    norm_num [m, Model.couple, Model.addCoupling, Model.addVariable, Model.empty, Vartype.width]
  obtain rfl : e = -5 := Option.some.inj (he.symm.trans hstart)
  obtain rfl : e' = 5 := Option.some.inj (he'.symm.trans hend)
  exact ⟨hm, hne, hs, rfl, by decide, hot, cold, h, hhot, hlt, hstart, hend, hle, hexp⟩

theorem log_le_cold_mul_iff {b change : ℝ} {t : Vartype} (hb : 0 < b) :
    Real.log 100 ≤ Real.log 100 / (t.width * b) * change ↔ t.width * b ≤ change := by
  have hlog : 0 < Real.log 100 := Real.log_pos (by norm_num)
  rw [div_mul_eq_mul_div, le_div_iff₀ (mul_pos (width_pos t) hb), mul_le_mul_iff_right₀ hlog]

theorem exp_cold_eq_iff {b change : ℝ} {t : Vartype} (hb : 0 < b) :
    Real.exp (-change * (Real.log 100 / (t.width * b))) = 1 / 100 ↔ change = t.width * b := by
  have hlog : Real.log 100 ≠ 0 := (Real.log_pos (by norm_num)).ne'
  have hwidth : t.width * b ≠ 0 := (mul_pos (width_pos t) hb).ne'
  rw [← exp_neg_log (by norm_num), Real.exp_eq_exp, neg_mul, neg_inj, mul_div_assoc',
    div_eq_iff hwidth, mul_comm (Real.log 100), mul_left_inj' hlog]

theorem width_mul_le_of_multiples (hm : m.WellFormed) {b : ℝ} (hb : 0 < b)
    (h : ∀ x ∈ m.coefficients, ∃ k : ℤ, x = k * b) (hs : s.Fits) (hlen : s.len = m.numVariables)
    (hi : i < m.numVariables) (hlt : m.energyAt s < m.energyAt (s.toggle i)) :
    m.vartype.width * b ≤ m.energyAt (s.toggle i) - m.energyAt s := by
  have hchange := hm.abs_change hs hlen hi
  rw [abs_of_pos (sub_pos.2 hlt)] at hchange
  have hfield : m.field (s.coordinate m.vartype) i ≠ 0 := by
    intro hzero
    rw [hzero, abs_zero, mul_zero] at hchange
    exact (sub_pos.2 hlt).ne' hchange
  obtain ⟨k, hk⟩ := field_multiple hm h s m.vartype i
  rw [hchange]
  exact mul_le_mul_of_nonneg_left (le_abs_of_multiple hb hk hfield) (width_pos _).le

/-- At the cold end a flip that costs the smallest bias is accepted once in a hundred times, one
that costs more is accepted less often, and one that costs less more often. If all biases are
multiples of the smallest one, then no increase costs less. -/
theorem defaultRange?_cold_end [DecidableEq V] (hm : m.Reachable)
    (h : defaultRange? m = some (hot, cold)) :
    ∃ b, IsSmallest m b ∧ cold = Real.log 100 / (m.vartype.width * b) ∧
      ∀ s : PackedState, s.Fits → s.len = m.numVariables → ∀ i < m.numVariables,
        ∃ e e', m.energyOfState? s = some e ∧ m.energyOfState? (s.toggle i) = some e' ∧
          (Real.log 100 ≤ cold * (e' - e) ↔ m.vartype.width * b ≤ e' - e) ∧
          (Real.exp (-(e' - e) * cold) ≤ 1 / 100 ↔ m.vartype.width * b ≤ e' - e) ∧
          (Real.exp (-(e' - e) * cold) = 1 / 100 ↔ e' - e = m.vartype.width * b) ∧
          (m.vartype.width * b ≤ e' - e → ∀ (γ : Type) [Generator γ] (g : γ),
            (accepts cold (e' - e) g).1 = true → (uniform g : ℝ × γ).1 < 1 / 100) ∧
          ((∀ x ∈ m.coefficients, ∃ k : ℤ, x = k * b) → e < e' →
            m.vartype.width * b ≤ e' - e) := by
  have hm := hm.wellFormed
  obtain ⟨b, hb, -, rfl⟩ := exists_isSmallest hm h
  refine ⟨b, hb, rfl, fun s hs hlen i hi => ⟨_, _, hm.energyOfState?_eq hlen,
    hm.energyOfState?_eq hlen, log_le_cold_mul_iff hb.pos, ?_, exp_cold_eq_iff hb.pos, ?_, ?_⟩⟩
  · rw [exp_le_one_div_iff (by norm_num), log_le_cold_mul_iff hb.pos]
  · intro hle γ _ g haccepts
    have hpos : 0 < m.vartype.width * b := mul_pos (width_pos _) hb.pos
    exact uniform_lt_of_accepts ((log_le_cold_mul_iff hb.pos).2 hle) (hpos.trans_le hle) haccepts
  · exact fun hmultiples hlt => width_mul_le_of_multiples hm hb.pos hmultiples hs hlen hi hlt

theorem defaultRange?_cold_end_two_spins :
    let m : Model Nat ℝ := ((Model.empty .spin).addVariable 5 (-2)).couple 5 1 4
    let s := PackedState.ofBits [false, true]
    m.Reachable ∧ IsSmallest m 2 ∧ (∀ x ∈ m.coefficients, ∃ k : ℤ, x = k * 2) ∧ s.Fits ∧
      s.len = m.numVariables ∧ 0 < m.numVariables ∧
      ∃ hot cold, defaultRange? m = some (hot, cold) ∧
        m.energyOfState? s = some (-2) ∧ m.energyOfState? (s.toggle 0) = some 2 ∧
        Real.log 100 ≤ cold * (2 - -2) ∧ Real.exp (-(2 - -2) * cold) = 1 / 100 := by
  intro m s
  have hm : m.Reachable :=
    .addInteraction (.addVariable 5 (-2) (.empty .spin)) (u := 5) (v := 1) (b := 4) rfl
  have hs : s.Fits := PackedState.fits_ofBits _
  have hcoefficients : m.coefficients = [0 + -2 + 0, 0 + 0, 0 + 4] := rfl
  have hb : IsSmallest m 2 := by
    refine ⟨two_pos, ⟨0 + -2 + 0, by simp [hcoefficients], by norm_num⟩, ?_⟩
    rw [hcoefficients]
    norm_num
  have hmultiples : ∀ x ∈ m.coefficients, ∃ k : ℤ, x = k * 2 := by
    rw [hcoefficients]
    intro x hx
    simp only [List.mem_cons, List.not_mem_nil, or_false] at hx
    obtain rfl | rfl | rfl := hx
    · exact ⟨-1, by norm_num⟩
    · exact ⟨0, by norm_num⟩
    · exact ⟨2, by norm_num⟩
  obtain ⟨⟨hot, cold⟩, h⟩ : ∃ r, defaultRange? m = some r := by
    rw [defaultRange?_eq hm.wellFormed, minBias?_eq_some_iff.2 hb]
    exact ⟨_, rfl⟩
  have hstart : m.energyOfState? (.ofBits [false, true]) = some (-2) := by
    change some (0 + (0 + -2 + 0) * ((-1 : Int) : ℝ) +
      (0 + 4) * ((-1 : Int) : ℝ) * ((1 : Int) : ℝ) + (0 + 0) * ((1 : Int) : ℝ)) = some (-2)
    norm_num
  have hend : m.energyOfState? (PackedState.toggle (.ofBits [false, true]) 0) = some 2 := by
    change some (0 + (0 + -2 + 0) * ((1 : Int) : ℝ) + (0 + 4) * ((1 : Int) : ℝ) * ((1 : Int) : ℝ) +
      (0 + 0) * ((1 : Int) : ℝ)) = some 2
    norm_num
  obtain ⟨b, hb', -, hflips⟩ := defaultRange?_cold_end hm h
  obtain ⟨e, e', he, he', hlog, -, hexp, -, hle⟩ := hflips s hs rfl 0 (by decide)
  obtain rfl : b = 2 := hb'.unique hb
  obtain rfl : e = -2 := Option.some.inj (he.symm.trans hstart)
  obtain rfl : e' = 2 := Option.some.inj (he'.symm.trans hend)
  have hwidth : (m.vartype.width : ℝ) * 2 = 2 - -2 := by
    change ((2 : Nat) : ℝ) * 2 = 2 - -2
    norm_num
  exact ⟨hm, hb, hmultiples, hs, rfl, by decide, hot, cold, h, hstart, hend,
    hlog.2 (hle hmultiples (by norm_num)), hexp.2 hwidth.symm⟩

/-- A bit in a field of a quarter, where the smallest bias is three quarters. -/
theorem cold_end_accepts_smaller_increase :
    let m : Model Nat ℝ := ((Model.empty .binary).addVariable 0 1).couple 0 1 (-(3 / 4))
    let s := PackedState.ofBits [false, true]
    m.Reachable ∧ s.Fits ∧ s.len = m.numVariables ∧ 0 < m.numVariables ∧
      ∃ hot cold, defaultRange? m = some (hot, cold) ∧ cold = Real.log 100 / (3 / 4) ∧
        m.energyOfState? s = some 0 ∧ m.energyOfState? (s.toggle 0) = some (1 / 4) ∧
        cold * (1 / 4 - 0) < Real.log 100 ∧ 1 / 100 < Real.exp (-(1 / 4 - 0) * cold) := by
  intro m s
  have hm : m.Reachable :=
    .addInteraction (.addVariable 0 1 (.empty .binary)) (u := 0) (v := 1) (b := -(3 / 4)) rfl
  have hcoefficients : m.coefficients = [0 + 1 + 0, 0 + 0, 0 + -(3 / 4)] := rfl
  have hb : IsSmallest m (3 / 4) := by
    refine ⟨by norm_num, ⟨0 + -(3 / 4), by simp [hcoefficients], by norm_num⟩, ?_⟩
    rw [hcoefficients]
    norm_num
  have hstart : m.energyOfState? (.ofBits [false, true]) = some 0 := by
    change some (0 + (0 + 1 + 0) * ((0 : Int) : ℝ) +
      (0 + -(3 / 4)) * ((0 : Int) : ℝ) * ((1 : Int) : ℝ) + (0 + 0) * ((1 : Int) : ℝ)) = some 0
    norm_num
  have hend : m.energyOfState? (PackedState.toggle (.ofBits [false, true]) 0) = some (1 / 4) := by
    change some (0 + (0 + 1 + 0) * ((1 : Int) : ℝ) +
      (0 + -(3 / 4)) * ((1 : Int) : ℝ) * ((1 : Int) : ℝ) + (0 + 0) * ((1 : Int) : ℝ)) =
        some (1 / 4)
    norm_num
  have hlog : 0 < Real.log 100 := Real.log_pos (by norm_num)
  have hcold : Real.log 100 / (3 / 4) * (1 / 4 - 0) < Real.log 100 := by
    linarith
  have hwidth : ((1 : Nat) : ℝ) * (3 / 4) = 3 / 4 := by norm_num
  have h : defaultRange? m =
      some (Real.log 2 / ((1 : Nat) * maxField m), Real.log 100 / (3 / 4)) := by
    rw [defaultRange?_eq hm.wellFormed, minBias?_eq_some_iff.2 hb]
    change some (Real.log 2 / ((1 : Nat) * maxField m),
      Real.log 100 / (((1 : Nat) : ℝ) * (3 / 4))) = _
    rw [hwidth]
  exact ⟨hm, PackedState.fits_ofBits _, rfl, by decide, _, _, h, rfl, hstart, hend, hcold,
    not_le.1 fun hle => hcold.not_ge ((exp_le_one_div_iff (by norm_num)).1 hle)⟩

end Ends

end Annealing

end BinaryQuadratic

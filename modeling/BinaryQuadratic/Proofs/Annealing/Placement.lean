import BinaryQuadratic.Proofs.Annealing.Acceptance
import BinaryQuadratic.Proofs.Coefficient.Binary64.Accuracy

/-! Inverse temperatures placed in doubles between two ends that nobody has checked. They are finite
as long as the ends and their ratio leave some room. An end that is too large spoils the first one
of them, and so does, where they are placed by logarithms, a ratio that is too large. -/

namespace BinaryQuadratic.Annealing

open Coefficient Binary64

variable {start stop : Float} {S E Q : ℚ} {n : Nat} {exp log : Float → Float}

section Room

theorem exists_hasValue_linear (hstart : HasValue start S) (hstop : HasValue stop E) (hle : S ≤ E)
    (hroom : E ≤ 2 ^ 1020) (hn : n < 2 ^ 64) :
    ∀ beta ∈ linear start stop n, ∃ v, HasValue beta v := by
  intro beta hbeta
  rw [linear] at hbeta
  split at hbeta
  · exact ⟨E, List.mem_singleton.1 hbeta ▸ hstop⟩
  next hone =>
  obtain ⟨i, hi, rfl⟩ := List.mem_map.1 hbeta
  have hi := List.mem_range.1 hi
  have hS := hstart.nonneg
  obtain ⟨d, hdvalue, hd⟩ := (hstop.sub hstart hle).hasValue (k := 1020) (by norm_num)
    ((sub_le_self E hS).trans hroom)
  have hdE : d ≤ 2 ^ 1020 := hd.ge_of_grid (grid_two_pow 1020) ((sub_le_self E hS).trans hroom)
  have hlarge : (1 : ℚ) ≤ 2 ^ 1020 := one_le_pow₀ one_le_two
  -- the last multiple may exceed the distance of the ends, but not so far that the sum has no room
  obtain ⟨y, hyvalue, hy⟩ := exists_multiple hdvalue
    (hdE.trans (pow_le_pow_right₀ one_le_two (by norm_num))) (by omega) hn hi
  have hsecond : (2 : ℚ) ^ 1023 = 8 * 2 ^ 1020 := by
    rw [show (1023 : Nat) = 3 + 1020 from rfl, pow_add]
    norm_num
  have hsmall : (1 : ℚ) / 2 ^ 1000 ≤ 1 :=
    div_le_one_of_le₀ (one_le_pow₀ one_le_two) (by positivity)
  obtain ⟨v, hv, -⟩ := (hstart.add hyvalue).hasValue (k := 1023) (by norm_num) (by
    rw [hsecond]
    generalize (2 : ℚ) ^ 1020 = room at *
    generalize (1 : ℚ) / 2 ^ 1000 = least at *
    norm_num at hy
    linarith only [hy, hdE, hsmall, hlarge, hle, hroom])
  exact ⟨v, hv⟩

theorem exists_exp_multiple (h : Accurate exp log) {q : Float} (hq : HasValue q Q) (hone : 1 ≤ Q)
    (hroom : Q ≤ 2 ^ 1020) (hn : 2 ≤ n) (hn' : n < 2 ^ 64) {i : Nat} (hi : i < n) :
    ∃ z, HasValue (exp (Float.ofNat i * (log q / (Float.ofNat n - Float.ofNat 1)))) z ∧
      z ≤ 4 * Q := by
  obtain ⟨l, hlvalue, hl, hl'⟩ := h.exists_log_le hq hone hroom
  obtain ⟨y, hyvalue, hy⟩ := exists_multiple hlvalue
    (hl'.trans (pow_le_pow_right₀ one_le_two (by norm_num))) hn hn' hi
  have hpos := zero_lt_one.trans_le hone
  refine h.exists_exp_le hyvalue hpos hroom ?_
  -- all that is rounded, and what the logarithm is off by, is less than `ln 2`
  have hcast := (Rat.cast_le (K := ℝ)).2 hy
  push_cast at hcast
  have hl' : (l : ℝ) ≤ 2 ^ 10 := by exact_mod_cast hl'
  have hsmall : (1 : ℝ) / 2 ^ 1000 ≤ 1 / 2 ^ 10 :=
    one_div_le_one_div_of_le (by norm_num) (pow_le_pow_right₀ one_le_two (by norm_num))
  have htwo := Real.log_two_gt_d9
  rw [Real.log_mul two_ne_zero (by exact_mod_cast hpos.ne')]
  generalize (1 : ℝ) / 2 ^ 1000 = least at *
  norm_num at hcast hsmall hl hl' htwo
  linarith only [hcast, hsmall, hl, hl', htwo]

theorem exists_hasValue_geometric (h : Accurate exp log) (hstart : HasValue start S)
    (hstop : HasValue stop E) (hle : S ≤ E) (hroom : E ≤ 2 ^ 1020) (hn : n < 2 ^ 64)
    (hquotient : n ≠ 1 → 0 < S ∧ ∃ Q, HasValue (stop / start) Q ∧ Q ≤ 2 ^ 1020) :
    letI := withFunctions exp log
    ∀ beta ∈ geometric start stop n, ∃ v, HasValue beta v := by
  intro beta hbeta
  unfold geometric at hbeta
  split at hbeta
  · exact ⟨E, List.mem_singleton.1 hbeta ▸ hstop⟩
  next hone =>
  obtain ⟨i, hi, rfl⟩ := List.mem_map.1 hbeta
  have hi := List.mem_range.1 hi
  obtain ⟨hpos, Q, hq, hqroom⟩ := hquotient hone
  have hfaithful := Rounds.faithful (hstop.div hstart hpos) hq
  have hqone : 1 ≤ Q := hfaithful.le_of_grid (Holds.grid hasValue_one) ((one_le_div hpos).2 hle)
  obtain ⟨z, hzvalue, hz⟩ := exists_exp_multiple h hq hqone hqroom (by omega) hn hi
  have hend : S * Q ≤ 2 * E := by
    have htiny : tiny ≤ 1 / 2 ^ 2 := tiny_le (by norm_num)
    calc S * Q ≤ S * (slack * (E / S) + tiny) := mul_le_mul_of_nonneg_left hfaithful.le_slack hpos.le
      _ = slack * E + S * tiny := by rw [mul_add, mul_left_comm, mul_div_cancel₀ _ hpos.ne']
      _ ≤ slack * E + E * (1 / 2 ^ 2) :=
          add_le_add_right (mul_le_mul hle htiny tiny_pos.le (hpos.le.trans hle)) _
      _ ≤ 2 * E := by
          norm_num [slack]
          linarith
  have hproduct : S * z ≤ 2 ^ 1023 := by
    calc S * z ≤ S * (4 * Q) := mul_le_mul_of_nonneg_left hz hpos.le
      _ ≤ 2 ^ 3 * E := by linarith
      _ ≤ 2 ^ 3 * 2 ^ 1020 := mul_le_mul_of_nonneg_left hroom (by norm_num)
      _ = 2 ^ 1023 := (pow_add 2 3 1020).symm
  obtain ⟨v, hv, -⟩ := (hstart.mul hzvalue).hasValue (by norm_num) hproduct
  exact ⟨v, hv⟩

end Room

section Overflow

theorem exists_excess_geometric (h : Accurate exp log) (hn : 2 ≤ n)
    (hquotient : Excess (stop / start).toModel.unpack) :
    letI := withFunctions exp log
    ∃ beta ∈ geometric start stop n, Excess beta.toModel.unpack := by
  let _ := withFunctions exp log
  have hr := (h.excess_log hquotient).div (signless_ofNat_sub_one (n := n) (by omega))
  have hexp := isNaN_iff.1 (h.isNaN_exp _ (isNaN_iff.2 hr.zero_mul))
  refine ⟨start * exp (Float.ofNat 0 * (log (stop / start) / (Float.ofNat n - Float.ofNat 1))),
    ?_, ?_⟩
  · unfold geometric
    rw [if_neg (by omega)]
    exact List.mem_map.2 ⟨0, List.mem_range.2 (by omega), rfl⟩
  · rw [mul_notANumber hexp]
    exact .notANumber

theorem exists_excess_linear (hn : 2 ≤ n) (hdifference : Excess (stop - start).toModel.unpack) :
    ∃ beta ∈ linear start stop n, Excess beta.toModel.unpack := by
  have hstep := hdifference.div (signless_ofNat_sub_one (n := n) (by omega))
  refine ⟨start + Float.ofNat 0 * ((stop - start) / (Float.ofNat n - Float.ofNat 1)), ?_, ?_⟩
  · unfold linear
    rw [if_neg (by omega)]
    exact List.mem_map.2 ⟨0, List.mem_range.2 (by omega), rfl⟩
  · rw [add_notANumber hstep.zero_mul]
    exact .notANumber

end Overflow

section Placing

/-- Up to here there is room for what is rounded on the way. -/
def ample : Float := Float.ofNat (2 ^ 1020)

theorem hasValue_ample : HasValue ample (2 ^ 1020) := by
  rw [ample]
  exact hasValue_two_pow (k := 1020) (by norm_num)

theorem notBelow_place (h : Accurate exp log) (hstart : NotBelow start.toModel.unpack)
    (hstop : NotBelow stop.toModel.unpack) (hle : start ≤ stop) (i : Interpolation) :
    letI := withFunctions exp log
    ∀ beta ∈ i.place (start, stop) n, NotBelow beta.toModel.unpack := by
  have hnot : ¬stop < start := fun hlt => ((Comparable.lt_iff stop start).1 hlt).2 hle
  let _ := withFunctions exp log
  cases i with
  | geometric => exact notBelow_geometric h.not_exp_lt_zero hstart hstop n
  | linear => exact notBelow_linear hstart hstop hnot n

theorem exists_hasValue_place (h : Accurate exp log) (hstart : Signless start.toModel.unpack)
    (hstop : NotBelow stop.toModel.unpack) (hle : start ≤ stop) (hroom : stop ≤ ample)
    {i : Interpolation} (hquotient : i = .geometric → n ≠ 1 → stop / start ≤ ample)
    (hn : n < 2 ^ 64) :
    letI := withFunctions exp log
    ∀ beta ∈ i.place (start, stop) n, ∃ v, HasValue beta v := by
  obtain ⟨E, hE, hEroom⟩ := exists_hasValue_of_le hstop hasValue_ample hroom
  obtain ⟨S, hS, hSE⟩ := exists_hasValue_of_le hstart.notBelow hE hle
  cases i with
  | linear => exact exists_hasValue_linear hS hE hSE hEroom hn
  | geometric =>
    refine exists_hasValue_geometric h hS hE hSE hEroom hn fun hone => ?_
    obtain ⟨Q, hQ, hQroom⟩ := exists_hasValue_of_le (notBelow_div hstop hstart) hasValue_ample
      (hquotient rfl hone)
    refine ⟨(hS.pos_or_eq_zero hstart).resolve_right fun hzero => ?_, Q, hQ, hQroom⟩
    have hexcess := (excess_div_zero hstop hzero).isFinite_eq_false
    rw [hQ.isFinite] at hexcess
    cases hexcess

theorem exists_excess_place (h : Accurate exp log) (hstart : Signless start.toModel.unpack)
    (hexcess : Excess stop.toModel.unpack) (i : Interpolation) (hn : n ≠ 0) :
    letI := withFunctions exp log
    ∃ beta ∈ i.place (start, stop) n, Excess beta.toModel.unpack := by
  let _ := withFunctions exp log
  by_cases hone : n = 1
  · refine ⟨stop, ?_, hexcess⟩
    cases i <;> simp only [Interpolation.place, geometric, linear, if_pos hone, List.mem_singleton]
  · have htwo : 2 ≤ n := by omega
    cases i with
    | geometric => exact exists_excess_geometric h htwo (hexcess.div hstart)
    | linear => exact exists_excess_linear htwo (hexcess.sub hstart.notBelow)

end Placing

end BinaryQuadratic.Annealing

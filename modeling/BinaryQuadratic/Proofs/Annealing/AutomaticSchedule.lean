import BinaryQuadratic.Proofs.Annealing.Placement
import BinaryQuadratic.Proofs.Annealing.Schedule

/-! The schedule that is derived from the coefficients of a model, in doubles. Its hot end is not
above its cold end, whatever was rounded or was too large. Its ends are not checked as given ones are,
so that it is one that could be given only where they and their ratio leave room. -/

namespace BinaryQuadratic.Annealing

open Coefficient Binary64

variable {exp log : Float → Float}

section Validation

variable {α : Type} [Coefficient α] {betas : List α} {i : Interpolation}

theorem Betas.validate_schedule_eq_ok (hne : betas ≠ [])
    (h : ∀ beta ∈ betas, isFinite beta = true ∧ ¬beta < 0) :
    (Betas.schedule betas).validate i = .ok () := by
  rw [Betas.validate, if_neg (by simpa using hne), if_neg]
  simpa [not_or] using h

theorem Betas.validate_schedule_eq_error {beta : α} (hbeta : beta ∈ betas)
    (h : isFinite beta = false) : (Betas.schedule betas).validate i = .error .invalidBeta := by
  have hne : betas ≠ [] := List.ne_nil_of_mem hbeta
  rw [Betas.validate, if_neg (by simpa using hne), if_pos]
  exact List.any_eq_true.2 ⟨beta, hbeta, by simp [h]⟩

end Validation

section Ends

variable {V : Type} {m : Model V Float} {b hot cold : Float}

theorem magnitude_le_field {a : Float} {weights : List Float} (ha : isFinite a = true)
    (hweights : ∀ w ∈ weights, isFinite w = true) :
    magnitude a ≤ magnitude a + sum (weights.map magnitude) ∧
      ∀ w ∈ weights, magnitude w ≤ magnitude a + sum (weights.map magnitude) := by
  have hmagnitude : ∀ {x : Float}, isFinite x = true → 0 ≤ magnitude x := fun hx =>
    (exists_hasValue_abs hx).choose_spec.zero_le
  obtain ⟨hnonneg, hall⟩ := le_sum (l := weights.map magnitude) fun x hx => by
    obtain ⟨w, hw, rfl⟩ := List.mem_map.1 hx
    exact hmagnitude (hweights w hw)
  obtain ⟨hbias, hsum⟩ := le_add_of_nonneg (hmagnitude ha) hnonneg
  exact ⟨hbias, fun w hw => Comparable.le_trans _ _ _ (hall _ (List.mem_map_of_mem hw)) hsum⟩

theorem magnitude_le_maxField_of_isFinite (hm : m.WellFormed)
    (hfinite : ∀ c ∈ m.coefficients, isFinite c = true) {c : Float} (hc : c ∈ m.coefficients) :
    magnitude c ≤ maxField m := by
  have hfield : ∀ e ∈ m.biases.zip m.adjacency,
      magnitude e.1 ≤ magnitude e.1 + sum (e.2.values.map magnitude) ∧
        ∀ w ∈ e.2.values, magnitude w ≤ magnitude e.1 + sum (e.2.values.map magnitude) := by
    intro e he
    obtain ⟨hbias, hrow⟩ := List.of_mem_zip he
    exact magnitude_le_field (hfinite _ (List.mem_append_left _ hbias)) fun w hw =>
      hfinite _ (Model.mem_coefficients_of_mem_row hm hrow hw)
  have hnumber : ∀ x ∈ (m.biases.zip m.adjacency).map fun e =>
      magnitude e.1 + sum (e.2.values.map magnitude), IsNumber x := by
    intro x hx
    obtain ⟨e, he, rfl⟩ := List.mem_map.1 hx
    exact (NumbersCompared.isNumber_of_le _ _ (hfield e he).1).2
  obtain ⟨e, he, hce⟩ := m.mem_zip_of_mem_coefficients hm hc
  have hle : magnitude c ≤ magnitude e.1 + sum (e.2.values.map magnitude) := by
    rcases hce with rfl | hce
    · exact (hfield e he).1
    · exact (hfield e he).2 c hce
  rw [maxField_eq]
  exact Comparable.le_trans _ _ _ hle
    ((foldl_maxNum_of_isNumber (by decide) hnumber).2 _ (List.mem_map_of_mem he))

theorem of_minBias?_eq_some (h : minBias? m = some b) :
    0 < b ∧ ∃ c ∈ m.coefficients, magnitude c = b := by
  change least? ((m.coefficients.map magnitude).filter fun b => 0 < b) = some b at h
  have hmem := mem_of_least?_eq_some (fun x hx => by
    have hpos : 0 < x := of_decide_eq_true (List.mem_filter.1 hx).2
    exact (NumbersCompared.isNumber_of_le _ _ (Comparable.le_of_lt hpos)).2) h
  obtain ⟨hmem, hpos⟩ := List.mem_filter.1 hmem
  exact ⟨of_decide_eq_true hpos, List.mem_map.1 hmem⟩

theorem hasValue_width (t : Vartype) : HasValue (ofNat t.width) t.width := by
  cases t <;> exact hasValue_ofNat (by decide)

theorem result_width_mul (t : Vartype) {B : ℚ} (hb : HasValue b B) :
    Result (t.width * B) (ofNat t.width * b : Float).toModel.unpack := by
  have hgrid : Grid (t.width * B) := by
    obtain ⟨m, e, hm, he, rfl⟩ := Holds.grid hb
    cases t with
    | binary => exact ⟨m, e, hm, he, by rw [Vartype.width, Nat.cast_one, one_mul]⟩
    | spin =>
      refine ⟨m, e + 1, hm, by omega, ?_⟩
      rw [Vartype.width, zpow_add_one₀ two_ne_zero]
      push_cast
      ring
  obtain ⟨v, hv, hresult⟩ := (hasValue_width t).mul hb
  rwa [hv.eq_of_grid hgrid] at hresult

theorem hot_le_cold (h : Accurate exp log) (t : Vartype) {B : ℚ} {largest : Float}
    (hb : HasValue b B) (hpos : 0 < B) (hle : b ≤ largest) :
    log (ofNat 2) / (ofNat t.width * largest) ≤ log (ofNat 100) / (ofNat t.width * b) := by
  obtain ⟨x, y, hx, hy, -, hx', hy', -⟩ := h.exists_log_two_hundred
  have hwidth : (0 : ℚ) < t.width := by cases t <;> norm_num [Vartype.width]
  have hsmaller := result_width_mul t hb
  obtain ⟨F, hF, hlarger⟩ : ∃ F, t.width * B ≤ F ∧
      Result F (ofNat t.width * largest : Float).toModel.unpack := by
    rcases hasValue_or_of_nonneg (Comparable.le_trans _ _ _ hb.zero_le hle) with ⟨F, hF⟩ | hF
    · exact ⟨t.width * F, mul_le_mul_of_nonneg_left ((hb.le_iff hF).1 hle) hwidth.le,
        result_width_mul t hF⟩
    · -- the sum of a row was too large: any number that there is no room for stands for it
      refine ⟨max (t.width * B) (2 ^ 1024), le_max_left _ _, ?_⟩
      rw [(hasValue_width t).mul_infinity hwidth hF]
      exact .infinity (le_max_right _ _)
  exact div_le_div_of_two_mul_le hx hy (by linarith) (by linarith) hsmaller hlarger
    (mul_pos hwidth hpos) hF

theorem exists_of_defaultRange? :
    letI := withFunctions exp log
    defaultRange? m = some (hot, cold) → ∃ b, minBias? m = some b ∧ 0 < maxField m ∧
      hot = log (ofNat 2) / (ofNat m.vartype.width * maxField m) ∧
      cold = log (ofNat 100) / (ofNat m.vartype.width * b) := by
  intro h
  let _ := withFunctions exp log
  unfold defaultRange? at h
  split at h
  · cases h
  · next b hb =>
    split at h
    · next hpos =>
      obtain ⟨rfl, rfl⟩ := Prod.mk.inj (Option.some.inj h)
      exact ⟨b, hb, hpos.1, rfl, rfl⟩
    · cases h

theorem ends_of_defaultRange? (h : Accurate exp log) (hm : m.WellFormed)
    (hfinite : ∀ c ∈ m.coefficients, isFinite c = true) :
    letI := withFunctions exp log
    defaultRange? m = some (hot, cold) →
      hot ≤ cold ∧ Signless hot.toModel.unpack ∧ NotBelow cold.toModel.unpack := by
  intro hrange
  obtain ⟨b, hb, hlargest, rfl, rfl⟩ := exists_of_defaultRange? hrange
  obtain ⟨hpos, c, hc, rfl⟩ := of_minBias?_eq_some hb
  obtain ⟨B, hB⟩ := exists_hasValue_abs (hfinite c hc)
  have hzero : HasValue 0 0 := .zero _ rfl
  obtain ⟨x, y, hx, hy, hxpos, -, hypos, -⟩ := h.exists_log_two_hundred
  have hsignless : ∀ {a : Float}, 0 < a →
      Signless (ofNat m.vartype.width * a : Float).toModel.unpack := fun ha => by
    have hwidth : Positive (Float.ofNat m.vartype.width).toModel.unpack :=
      (large_ofNat (by cases m.vartype <;> decide)).positive
    exact (nonnegative_mul Float.Model.Format.binary64 hwidth
      (positive_of_lt (of_decide_eq_true ha))).signless.pack
  refine ⟨hot_le_cold h m.vartype hB ((hzero.lt_iff hB).1 hpos)
    (magnitude_le_maxField_of_isFinite hm hfinite hc), ?_, ?_⟩
  · exact signless_div ((hzero.lt_iff hx).2 (by linarith)) (hsignless hlargest)
  · exact (signless_div ((hzero.lt_iff hy).2 (by linarith)) (hsignless hpos)).notBelow

theorem fallback_ends : (fallbackRange : Float × Float).1 ≤ (fallbackRange : Float × Float).2 ∧
    Signless (fallbackRange : Float × Float).1.toModel.unpack ∧
    NotBelow (fallbackRange : Float × Float).2.toModel.unpack ∧
    (fallbackRange : Float × Float).2 ≤ ample ∧
    (fallbackRange : Float × Float).2 / (fallbackRange : Float × Float).1 ≤ ample := by
  have hsixteen : HasValue (Float.ofNat 16) 16 := hasValue_ofNat (by norm_num)
  have hample : Float.ofNat 16 ≤ ample := (hsixteen.le_iff hasValue_ample).2 (by
    exact (by norm_num : (16 : ℚ) ≤ 2 ^ 4).trans (pow_le_pow_right₀ one_le_two (by norm_num)))
  refine ⟨by decide, ?_, (large_ofNat one_pos).positive.notBelow,
    Comparable.le_trans _ _ _ (by decide) hample, Comparable.le_trans _ _ _ (by decide) hample⟩
  exact signless_div (by decide) (large_ofNat (n := 10) (by norm_num)).positive.signless

end Ends

section Automatic

theorem validate_of_hasValue {betas : List Float} {i : Interpolation} (hne : betas ≠ [])
    (h : ∀ beta ∈ betas, ∃ v, HasValue beta v) : (Betas.schedule betas).validate i = .ok () :=
  Betas.validate_schedule_eq_ok hne fun beta hbeta => by
    obtain ⟨v, hv⟩ := h beta hbeta
    exact ⟨hv.isFinite, hv.notBelow.not_lt_zero⟩

/-- The automatic schedule is never below zero, and where it is finite it could be given: that is so
for models without biases, and for any other one whose range stays away from what there is no room
for. A cold end that is too large, or for a geometric schedule a ratio of the ends, spoils it. -/
theorem validate_automatic_schedule (h : Accurate exp log) :
    letI := withFunctions exp log
    ∀ {V : Type} [DecidableEq V] {m : Model V Float} {a : Annealer Float}, m.Reachable →
      (∀ c ∈ m.coefficients, isFinite c = true) → a.validate = .ok () → a.betas = .auto →
      a.numSweeps < 2 ^ 64 →
      let betas := (a.run m).schedule
      (∀ beta ∈ betas, ¬beta < 0) ∧
      (defaultRange? m = none → (Betas.schedule betas).validate a.interpolation = .ok ()) ∧
      ∀ hot cold, defaultRange? m = some (hot, cold) → hot ≤ cold ∧
        (isFinite cold = false →
          (Betas.schedule betas).validate a.interpolation = .error .invalidBeta) ∧
        (a.interpolation = .geometric → a.numSweeps / a.sweepsPerBeta ≠ 1 →
          isFinite (cold / hot) = false →
          (Betas.schedule betas).validate a.interpolation = .error .invalidBeta) ∧
        (cold ≤ ample → (a.interpolation = .geometric → a.numSweeps / a.sweepsPerBeta ≠ 1 →
            cold / hot ≤ ample) →
          (Betas.schedule betas).validate a.interpolation = .ok ()) := by
  intro V _ m a hm hfinite hvalid hauto hsweeps betas
  let _ := withFunctions exp log
  obtain ⟨hper, hnumber, -⟩ := Annealer.validate_eq_ok_iff.1 hvalid
  obtain ⟨hne, hdvd⟩ := hnumber (by rw [hauto]; exact nofun)
  obtain ⟨n, hn⟩ : ∃ n, n = a.numSweeps / a.sweepsPerBeta := ⟨_, rfl⟩
  have hpos : n ≠ 0 := hn ▸ (Nat.div_pos (Nat.le_of_dvd (Nat.pos_of_ne_zero hne) hdvd)
    (Nat.pos_of_ne_zero hper)).ne'
  have hroom : n < 2 ^ 64 := hn ▸ (Nat.div_le_self _ _).trans_lt hsweeps
  have hbetas : betas = a.interpolation.place ((defaultRange? m).getD fallbackRange) n := by
    change a.betas.scheduleFor a.interpolation (a.numSweeps / a.sweepsPerBeta) m = _
    rw [hauto, ← hn]
    rfl
  have hnil : betas ≠ [] := by
    rw [hbetas, ← List.length_pos_iff, length_place]
    exact Nat.pos_of_ne_zero hpos
  have hfits : (∀ beta ∈ betas, ∃ v, HasValue beta v) →
      (Betas.schedule betas).validate a.interpolation = .ok () :=
    validate_of_hasValue (i := a.interpolation) hnil
  rw [← hn]
  cases hrange : defaultRange? m with
  | none =>
    rw [hrange, Option.getD_none] at hbetas
    obtain ⟨hle, hstart, hstop, hample, hquotient⟩ := fallback_ends
    have hvalues : ∀ beta ∈ betas, ∃ v, HasValue beta v := hbetas ▸
      exists_hasValue_place h hstart hstop hle hample (fun _ _ => hquotient) hroom
    refine ⟨fun beta hbeta => ?_, fun _ => hfits hvalues, nofun⟩
    exact (hvalues beta hbeta).choose_spec.notBelow.not_lt_zero
  | some range =>
    obtain ⟨hot, cold⟩ := range
    rw [hrange, Option.getD_some] at hbetas
    obtain ⟨hle, hhot, hcold⟩ := ends_of_defaultRange? h hm.wellFormed hfinite hrange
    -- one entry without room is enough to refuse the schedule
    have hspoilt : (∃ beta ∈ betas, Excess beta.toModel.unpack) →
        (Betas.schedule betas).validate a.interpolation = .error .invalidBeta := by
      rintro ⟨beta, hbeta, hexcess⟩
      exact Betas.validate_schedule_eq_error hbeta hexcess.isFinite_eq_false
    refine ⟨fun beta hbeta => ?_, nofun, fun _ _ heq => ?_⟩
    · rw [hbetas] at hbeta
      exact (notBelow_place h hhot.notBelow hcold hle _ beta hbeta).not_lt_zero
    · obtain ⟨rfl, rfl⟩ := Prod.mk.inj (Option.some.inj heq)
      refine ⟨hle, fun hinfinite => hspoilt ?_, fun hgeometric hone hinfinite => hspoilt ?_,
        fun hample hquotient => ?_⟩
      · rw [hbetas]
        exact exists_excess_place h hhot (excess_of_notBelow hcold hinfinite) _ hpos
      · rw [hbetas, hgeometric]
        exact exists_excess_geometric h (by omega)
          (excess_of_notBelow (notBelow_div hcold hhot) hinfinite)
      · refine hfits ?_
        rw [hbetas]
        exact exists_hasValue_place h hhot hcold hle hample hquotient hroom

theorem validate_automatic_schedule_one_bit :
    letI := withFunctions exponential logarithm
    let m : Model Nat Float := (Model.empty .binary).addVariable 0 1
    let a : Annealer Float := { numSweeps := 3 }
    Accurate exponential logarithm ∧ m.Reachable ∧ (∀ c ∈ m.coefficients, isFinite c = true) ∧
      a.validate = .ok () ∧ a.betas = .auto ∧ a.numSweeps < 2 ^ 64 ∧
      ∃ hot cold, defaultRange? m = some (hot, cold) ∧ hot ≤ cold ∧ cold ≤ ample ∧
        cold / hot ≤ ample ∧ (∀ beta ∈ (a.run m).schedule, ¬beta < 0) ∧
        (Betas.schedule (a.run m).schedule).validate a.interpolation = .ok () := by
  let _ := withFunctions exponential logarithm
  intro m a
  have h := accurate_exponential_logarithm
  have hm : m.Reachable := .addVariable 0 1 (.empty .binary)
  have hfinite : ∀ c ∈ m.coefficients, isFinite c = true := by decide
  have hvalid : a.validate = .ok () := by decide
  obtain ⟨x, y, hx, hy, hxpos, -, hypos, hy'⟩ := h.exists_log_two_hundred
  have hdivisor : HasValue (ofNat m.vartype.width * 1) 1 := by
    have hproduct : (ofNat m.vartype.width * 1 : Float) = Float.ofNat 1 := by decide
    rw [hproduct]
    exact hasValue_one
  obtain ⟨hot, hhot⟩ : ∃ hot, hot = logarithm (ofNat 2) / (ofNat m.vartype.width * 1) := ⟨_, rfl⟩
  obtain ⟨cold, hcold⟩ : ∃ cold, cold = logarithm (ofNat 100) / (ofNat m.vartype.width * 1) :=
    ⟨_, rfl⟩
  have hrange : defaultRange? m = some (hot, cold) := by
    have hsmallest : minBias? m = some 1 := by decide
    have hlargest : maxField m = 1 := by decide
    rw [defaultRange?, hsmallest, hlargest, hhot, hcold]
    exact if_pos (by decide)
  have hxvalue : HasValue hot x := hhot ▸ hx.div_of_one hdivisor
  have hyvalue : HasValue cold y := hcold ▸ hy.div_of_one hdivisor
  have hample : ∀ {k : Nat}, k ≤ 1020 → (2 : ℚ) ^ k ≤ 2 ^ 1020 := pow_le_pow_right₀ one_le_two
  have hroom : cold ≤ ample :=
    (hyvalue.le_iff hasValue_ample).2 ((by linarith : y ≤ 2 ^ 3).trans (hample (by norm_num)))
  have hquotient : cold / hot ≤ ample := by
    have hle : y / x ≤ 2 ^ 4 := by
      rw [div_le_iff₀ (by linarith)]
      linarith
    obtain ⟨q, hq, hfaithful⟩ :=
      (hyvalue.div hxvalue (by linarith)).hasValue (by norm_num) hle
    exact (hq.le_iff hasValue_ample).2
      ((hfaithful.ge_of_grid (grid_two_pow 4) hle).trans (hample (by norm_num)))
  obtain ⟨hnonneg, -, hall⟩ := validate_automatic_schedule h hm hfinite hvalid rfl (by decide)
  obtain ⟨hle, -, -, hplaced⟩ := hall hot cold hrange
  exact ⟨h, hm, hfinite, hvalid, rfl, by decide, hot, cold, hrange, hle, hroom, hquotient, hnonneg,
    hplaced hroom fun _ _ => hquotient⟩

/-- Two biases that are far apart. The cold end is too large for the ratio of the ends, so that the
exponential is taken at no number first, and then at infinity. -/
theorem automatic_schedule_not_finite :
    let log : Float → Float := fun a =>
      if a = 2 then 0.6931471805599453 else if a = 100 then 4.605170185988092 else a
    letI := withFunctions (fun a => a) log
    let m : Model Nat Float := ((Model.empty .binary).addVariable 0 1e200).addVariable 1 1e-200
    let a : Annealer Float := { numSweeps := 3 }
    m.Reachable ∧ (∀ c ∈ m.coefficients, isFinite c = true) ∧ a.validate = .ok () ∧
      a.betas = .auto ∧ (a.run m).schedule = [0 / 0, 1 / 0, 1 / 0] ∧
      (Betas.schedule (a.run m).schedule).validate a.interpolation = .error .invalidBeta := by
  let log : Float → Float := fun a =>
    if a = 2 then 0.6931471805599453 else if a = 100 then 4.605170185988092 else a
  let _ := withFunctions (fun a => a) log
  intro log m a
  have hschedule : (a.run m).schedule = [0 / 0, 1 / 0, 1 / 0] := by decide +kernel
  refine ⟨.addVariable 1 1e-200 (.addVariable 0 1e200 (.empty .binary)),
    by decide +kernel, by decide, rfl, hschedule, ?_⟩
  rw [hschedule]
  decide

end Automatic

end BinaryQuadratic.Annealing

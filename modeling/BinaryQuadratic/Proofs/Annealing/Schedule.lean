import BinaryQuadratic.Proofs.Annealing.Metropolis
import BinaryQuadratic.Proofs.Annealing.Outcomes
import BinaryQuadratic.Proofs.Annealing.RangeEnds

/-! The inverse temperatures of a run, in exact arithmetic. Both interpolations place them by a
monotone function of their position that takes the two ends of the range to themselves, and valid
settings spread the sweeps evenly over them. -/

namespace BinaryQuadratic.Annealing

open Coefficient Randomness

section Sweeps

variable {V α γ : Type}

def Run.sweepBetas (r : Run V α) : List α := r.schedule.flatMap (List.replicate r.sweepsPerBeta)

theorem Run.length_sweepBetas (r : Run V α) :
    r.sweepBetas.length = r.schedule.length * r.sweepsPerBeta := by
  simp [sweepBetas, List.length_flatMap]

namespace Chain

variable [Coefficient α] [Generator γ]

def sweepAlong? (c : Couplings α) (order : List Nat) (betas : List α) (chain : Chain α γ) :
    Option (Chain α γ) :=
  betas.foldlM (fun chain beta => proposeAll? c beta order chain) chain

theorem sweepAlong?_append (c : Couplings α) (order : List Nat) (betas betas' : List α)
    (chain : Chain α γ) : sweepAlong? c order (betas ++ betas') chain =
      (sweepAlong? c order betas chain).bind (sweepAlong? c order betas') := List.foldlM_append

theorem sweeps?_eq_sweepAlong? (c : Couplings α) (beta : α) (order : List Nat) (n : Nat)
    (chain : Chain α γ) :
    sweeps? c beta order n chain = sweepAlong? c order (List.replicate n beta) chain := by
  induction n generalizing chain with
  | zero => rfl
  | succ n ih =>
    rw [sweeps?, sweepAlong?, List.replicate_succ, List.foldlM_cons]
    cases proposeAll? c beta order chain with
    | none => rfl
    | some next => exact ih next

theorem cool?_eq_sweepAlong? (c : Couplings α) (order : List Nat) (n : Nat) (schedule : List α)
    (chain : Chain α γ) : cool? c order n schedule chain =
      sweepAlong? c order (schedule.flatMap (List.replicate n)) chain := by
  induction schedule generalizing chain with
  | nil => rfl
  | cons beta schedule ih =>
    rw [cool?, List.flatMap_cons, sweepAlong?_append, sweeps?_eq_sweepAlong?]
    cases sweepAlong? c order (List.replicate n beta) chain with
    | none => rfl
    | some next => exact ih next

end Chain

end Sweeps

section Shape

theorem length_place {α : Type} [Coefficient α] (i : Interpolation) (range : α × α) (n : Nat) :
    (i.place range n).length = n := by
  cases i <;> simp only [Interpolation.place, geometric, linear] <;> split <;> simp_all

variable {start stop : ℝ}

/-- Inverse temperatures that rise from one end of a range to the other. A single one is the cold
end. -/
structure Climbs (start stop : ℝ) (betas : List ℝ) : Prop where
  ascending : betas.Pairwise (· ≤ ·)
  mem_Icc : ∀ beta ∈ betas, beta ∈ Set.Icc start stop
  getLast?_eq : betas.getLast? = some stop
  head?_eq : 2 ≤ betas.length → betas.head? = some start

theorem climbs_singleton (h : start ≤ stop) : Climbs start stop [stop] where
  ascending := List.pairwise_singleton _ _
  mem_Icc beta hbeta := by
    obtain rfl := List.mem_singleton.1 hbeta
    exact Set.right_mem_Icc.2 h
  getLast?_eq := rfl
  head?_eq hlength := absurd hlength (by simp)

theorem climbs_map_range {f : Nat → ℝ} (hf : Monotone f) {n : Nat} (hstart : f 0 = start)
    (hstop : f n = stop) : Climbs start stop ((List.range (n + 1)).map f) where
  ascending := List.pairwise_map.2 (List.pairwise_le_range.imp fun hij => hf hij)
  mem_Icc beta hbeta := by
    obtain ⟨i, hi, rfl⟩ := List.mem_map.1 hbeta
    rw [← hstart, ← hstop]
    exact ⟨hf (Nat.zero_le i), hf (Nat.lt_succ_iff.1 (List.mem_range.1 hi))⟩
  getLast?_eq := by
    rw [List.range_succ, List.map_append, List.map_singleton, List.getLast?_append,
      List.getLast?_singleton, hstop]
    rfl
  head?_eq _ := by
    rw [List.range_succ_eq_map, List.map_cons, List.head?_cons, hstart]

theorem ofNat_sub_one (n : Nat) : (ofNat (n + 1) : ℝ) - ofNat 1 = n := by
  push_cast
  ring

theorem climbs_geometric (hstart : 0 < start) (h : start ≤ stop) {n : Nat} (hn : n ≠ 0) :
    Climbs start stop (geometric start stop n) := by
  by_cases hone : n = 1
  · rw [geometric, if_pos hone]
    exact climbs_singleton h
  · obtain ⟨k, rfl⟩ := Nat.exists_eq_succ_of_ne_zero hn
    have hk : (k : ℝ) ≠ 0 := Nat.cast_ne_zero.2 fun hk => hone (by rw [hk])
    have hr : 0 ≤ Real.log (stop / start) / k :=
      div_nonneg (Real.log_nonneg ((one_le_div hstart).2 h)) k.cast_nonneg
    rw [geometric, if_neg hone, ofNat_sub_one]
    refine climbs_map_range (fun i j hij => ?_) ?_ ?_
    · exact mul_le_mul_of_nonneg_left (Real.exp_le_exp.2
        (mul_le_mul_of_nonneg_right (Nat.cast_le.2 hij) hr)) hstart.le
    · change start * Real.exp ((0 : Nat) * (Real.log (stop / start) / k)) = start
      rw [Nat.cast_zero, zero_mul, Real.exp_zero, mul_one]
    · change start * Real.exp (k * (Real.log (stop / start) / k)) = stop
      rw [mul_div_cancel₀ _ hk, Real.exp_log (div_pos (hstart.trans_le h) hstart),
        mul_div_cancel₀ _ hstart.ne']

theorem climbs_linear (h : start ≤ stop) {n : Nat} (hn : n ≠ 0) :
    Climbs start stop (linear start stop n) := by
  by_cases hone : n = 1
  · rw [linear, if_pos hone]
    exact climbs_singleton h
  · obtain ⟨k, rfl⟩ := Nat.exists_eq_succ_of_ne_zero hn
    have hk : (k : ℝ) ≠ 0 := Nat.cast_ne_zero.2 fun hk => hone (by rw [hk])
    have hstep : 0 ≤ (stop - start) / k := div_nonneg (sub_nonneg.2 h) k.cast_nonneg
    rw [linear, if_neg hone, ofNat_sub_one]
    refine climbs_map_range (fun i j hij => ?_) ?_ ?_
    · exact add_le_add_right (mul_le_mul_of_nonneg_right (Nat.cast_le.2 hij) hstep) start
    · change start + (0 : Nat) * ((stop - start) / k) = start
      rw [Nat.cast_zero, zero_mul, add_zero]
    · change start + k * ((stop - start) / k) = stop
      rw [mul_div_cancel₀ _ hk, add_sub_cancel]

theorem climbs_place {i : Interpolation} (hstart : i = .geometric → 0 < start)
    (h : start ≤ stop) {n : Nat} (hn : n ≠ 0) : Climbs start stop (i.place (start, stop) n) := by
  cases i with
  | geometric => exact climbs_geometric (hstart rfl) h hn
  | linear => exact climbs_linear h hn

theorem Betas.validate_range_eq_ok_iff {i : Interpolation} :
    (Betas.range start stop).validate i = .ok () ↔
      0 ≤ start ∧ start ≤ stop ∧ (i = .geometric → 0 < start) := by
  rw [Betas.validate]
  by_cases horder : start < 0 ∨ stop < start
  · simp only [isFinite_eq, Bool.not_true, Bool.or_self, Bool.false_eq_true, if_false,
      if_pos horder, reduceCtorEq, false_iff]
    rintro ⟨hstart, hle, -⟩
    exact horder.elim hstart.not_gt hle.not_gt
  · obtain ⟨hstart, hle⟩ := not_or.1 horder
    rw [not_lt] at hstart hle
    simp [horder, hstart, hle, hstart.lt_iff_ne']

end Shape

section Settings

variable {V : Type} {m : Model V ℝ}

/-- The ends of the range that a schedule is placed in: those given, those that suit the model, or
those that are used where all coefficients are zero. -/
inductive Ends (m : Model V ℝ) : Betas ℝ → ℝ → ℝ → Prop
  | range (start stop : ℝ) : Ends m (.range start stop) start stop
  | default {hot cold : ℝ} : defaultRange? m = some (hot, cold) → Ends m .auto hot cold
  | fallback : (∀ b ∈ m.coefficients, b = 0) → Ends m .auto (1 / 10) 1

theorem exists_ends (hm : m.WellFormed) {b : Betas ℝ} {i : Interpolation}
    (hschedule : b.isSchedule = false) (hvalid : b.validate i = .ok ()) {n : Nat} (hn : n ≠ 0) :
    ∃ start stop, Ends m b start stop ∧ b.scheduleFor i n m = i.place (start, stop) n ∧
      Climbs start stop (i.place (start, stop) n) := by
  cases b with
  | schedule betas => cases hschedule
  | range start stop =>
    obtain ⟨-, hle, hstart⟩ := Betas.validate_range_eq_ok_iff.1 hvalid
    exact ⟨start, stop, .range start stop, rfl, climbs_place hstart hle hn⟩
  | auto =>
    cases hrange : defaultRange? m with
    | some range =>
      obtain ⟨hot, cold⟩ := range
      have hhot := hot_pos hm hrange
      refine ⟨hot, cold, .default hrange, by rw [Betas.scheduleFor, hrange]; rfl, ?_⟩
      exact climbs_place (fun _ => hhot) (hot_lt_cold hm hrange).le hn
    | none =>
      have hfallback : (fallbackRange : ℝ × ℝ) = (1 / 10, 1) := by
        norm_num [fallbackRange]
      refine ⟨1 / 10, 1, .fallback ((defaultRange?_eq_none_iff hm).1 hrange), ?_, ?_⟩
      · rw [Betas.scheduleFor, hrange, Option.getD_none, hfallback]
      · exact climbs_place (fun _ => by norm_num) (by norm_num) hn

theorem anneal?_eq_sweepAlong? {γ : Type} [Generator γ] (hm : m.WellFormed) (a : Annealer ℝ)
    {s : PackedState} (hs : s.Fits) (hlen : s.len = m.numVariables) (g : γ) :
    ∃ fields, (Couplings.ofModel m).localFields? s = some fields ∧
      anneal? (.ofModel m) (a.run m).schedule a.sweepsPerBeta s g =
        (Chain.sweepAlong? (.ofModel m) (List.range s.len) (a.run m).sweepBetas
          ⟨s, fields, g⟩).map fun last => (last.state, last.random) := by
  obtain ⟨fields, hfields, -⟩ := Couplings.exists_localFields? hm hs hlen
  refine ⟨fields, hfields, ?_⟩
  rw [anneal?_eq_run? (hlen.trans (Couplings.size_ofModel m).symm) hfields,
    ← Chain.cool?_eq_run?, Chain.cool?_eq_sweepAlong?]
  rfl

variable {a : Annealer ℝ}

/-- An explicit schedule is kept. Any other rises from one end of its range to the other, and its
inverse temperatures share the sweeps evenly. -/
theorem prepare_schedule [DecidableEq V] (hm : m.Reachable) (hvalid : a.validate = .ok ()) :
    ∃ r, a.prepare m = .ok r ∧ r.sweepsPerBeta = a.sweepsPerBeta ∧
      (∀ (γ : Type) [Generator γ] (s : PackedState) (g : γ), s.Fits → s.len = m.numVariables →
        ∃ fields, r.couplings.localFields? s = some fields ∧
          anneal? r.couplings r.schedule r.sweepsPerBeta s g =
            (Chain.sweepAlong? r.couplings (List.range s.len) r.sweepBetas ⟨s, fields, g⟩).map
              fun last => (last.state, last.random)) ∧
      (∀ betas, a.betas = .schedule betas → r.schedule = betas) ∧
      ((∀ betas, a.betas ≠ .schedule betas) →
        1 ≤ a.numSweeps / a.sweepsPerBeta ∧
        r.schedule.length = a.numSweeps / a.sweepsPerBeta ∧
        r.schedule.length * a.sweepsPerBeta = a.numSweeps ∧
        r.sweepBetas.length = a.numSweeps ∧
        ∃ start stop, Ends m a.betas start stop ∧ Climbs start stop r.schedule) := by
  have hm := hm.wellFormed
  obtain ⟨hper, hsweeps, hbetas⟩ := Annealer.validate_eq_ok_iff.1 hvalid
  refine ⟨a.run m, by rw [Annealer.prepare, hvalid], rfl,
    fun γ _ s g hs hlen => anneal?_eq_sweepAlong? hm a hs hlen g, fun betas hschedule => ?_,
    fun hauto => ?_⟩
  · rw [Annealer.run, hschedule, Betas.scheduleFor]
  · obtain ⟨hne, hdvd⟩ := hsweeps hauto
    have hcount : 1 ≤ a.numSweeps / a.sweepsPerBeta :=
      Nat.div_pos (Nat.le_of_dvd (Nat.pos_of_ne_zero hne) hdvd) (Nat.pos_of_ne_zero hper)
    obtain ⟨start, stop, hends, heq, hclimbs⟩ := exists_ends hm
      (Betas.isSchedule_eq_false_iff.2 hauto) hbetas (Nat.ne_of_gt hcount)
    have hschedule : (a.run m).schedule =
        a.interpolation.place (start, stop) (a.numSweeps / a.sweepsPerBeta) := heq
    have hlength : (a.run m).schedule.length = a.numSweeps / a.sweepsPerBeta := by
      rw [hschedule, length_place]
    have htotal : (a.run m).schedule.length * a.sweepsPerBeta = a.numSweeps := by
      rw [hlength, Nat.div_mul_cancel hdvd]
    exact ⟨hcount, hlength, htotal, (a.run m).length_sweepBetas.trans htotal, start, stop, hends,
      hschedule ▸ hclimbs⟩

theorem prepare_schedule_three_betas :
    let m : Model Nat ℝ := (Model.empty .binary).addVariable 0 0
    let a : Annealer ℝ := { numSweeps := 6, sweepsPerBeta := 2, interpolation := .linear }
    m.Reachable ∧ a.validate = .ok () ∧
      ∃ r, a.prepare m = .ok r ∧ r.schedule.length = 3 ∧ r.sweepBetas.length = 6 ∧
        r.schedule.head? = some (1 / 10) ∧ r.schedule.getLast? = some 1 := by
  intro m a
  have hm : m.Reachable := .addVariable 0 0 (.empty .binary)
  have hvalid : a.validate = .ok () := by
    simp [a, Annealer.validate, Betas.isSchedule, Betas.validate]
  obtain ⟨r, hr, -, -, -, hplaced⟩ := prepare_schedule hm hvalid
  obtain ⟨-, hlength, -, hsweeps, start, stop, hends, hclimbs⟩ := hplaced (by simp [a])
  have hlength : r.schedule.length = 3 := hlength.trans (by decide : 6 / 2 = 3)
  have hzero : ∀ b ∈ m.coefficients, b = 0 := by
    intro b hb
    obtain rfl := List.mem_singleton.1 (show b ∈ [(0 + 0 : ℝ)] from hb)
    norm_num
  have hnone := (defaultRange?_eq_none_iff hm.wellFormed).2 hzero
  obtain ⟨rfl, rfl⟩ : start = 1 / 10 ∧ stop = 1 := by
    cases hends with
    | default h => rw [hnone] at h; cases h
    | fallback => exact ⟨rfl, rfl⟩
  exact ⟨hm, hvalid, r, hr, hlength, hsweeps, hclimbs.head?_eq (by rw [hlength]; decide),
    hclimbs.getLast?_eq⟩

end Settings

end BinaryQuadratic.Annealing

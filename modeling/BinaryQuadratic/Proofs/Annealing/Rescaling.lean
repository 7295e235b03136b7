import BinaryQuadratic.Proofs.Annealing.Conversion
import BinaryQuadratic.Proofs.Annealing.Range
import BinaryQuadratic.Proofs.Annealing.Samples
import BinaryQuadratic.Proofs.Model.History

/-! Annealing depends neither on the unit of energy nor on its zero. In a larger unit the automatic
inverse temperatures are smaller by the same factor, so that each decision sees the same products:
the runs flip the same bits and draw the same numbers. -/

namespace BinaryQuadratic

open Coefficient Randomness SampleSet

variable {V α μ γ : Type} [Exact α] {m : Model V α} {k : α}

namespace Model

theorem coefficients_scale (m : Model V α) (k : α) :
    (m.scale k).coefficients = m.coefficients.map (· * k) := by
  have hinteractions : (m.scale k).interactions = _ := interactionsFrom_map (· * k) 0 m.adjacency
  rw [coefficients, biases_scale, hinteractions, coefficients, List.map_append, List.map_map,
    List.map_map]
  rfl

theorem energyAt_rescale (m : Model V α) (k c : α) (s : PackedState) :
    ((m.scale k).addOffset c).energyAt s = k * m.energyAt s + c := by
  rw [energyAt, polynomial_addOffset]
  exact congrArg (· + c) (m.energyAt_scale k s)

end Model

namespace Annealing

section Range

theorem magnitude_mul (hk : 0 < k) (x : α) : magnitude (x * k) = magnitude x * k :=
  (abs_mul x k).trans (congrArg _ (abs_of_pos hk))

theorem maxField_scale (hk : 0 < k) (m : Model V α) : maxField (m.scale k) = maxField m * k := by
  have hfield : ∀ e : α × OrderedMap Nat α,
      magnitude (e.1 * k) + sum ((e.2.map (· * k)).values.map magnitude) =
        (magnitude e.1 + sum (e.2.values.map magnitude)) * k := by
    intro e
    rw [sum_eq, sum_eq, OrderedMap.values_map, List.map_map, add_mul, magnitude_mul hk,
      ← List.sum_map_mul_right]
    exact congrArg _ (congrArg List.sum (List.map_congr_left fun x _ => magnitude_mul hk x))
  have hmax := foldl_maxNum_map_mul hk ((m.biases.zip m.adjacency).map fun e =>
    magnitude e.1 + sum (e.2.values.map magnitude)) 0
  rw [zero_mul, List.map_map] at hmax
  rw [maxField_eq, maxField_eq, Model.biases_scale, Model.scale, List.zip_map, List.map_map, ← hmax]
  exact congrArg _ (List.map_congr_left fun e _ => hfield e)

theorem minBias?_scale (hk : 0 < k) (m : Model V α) :
    minBias? (m.scale k) = (minBias? m).map (· * k) := by
  have hsizes : (m.coefficients.map (· * k)).map magnitude =
      (m.coefficients.map magnitude).map (· * k) := by
    rw [List.map_map, List.map_map]
    exact List.map_congr_left fun x _ => magnitude_mul hk x
  have hpos : ((fun b : α => decide (0 < b)) ∘ (· * k)) = fun b => decide (0 < b) :=
    funext fun b => decide_eq_decide.2 (mul_pos_iff_of_pos_right hk)
  show least? (((m.scale k).coefficients.map magnitude).filter fun b => 0 < b) = _
  rw [Model.coefficients_scale, hsizes, List.filter_map, hpos, least?_map_mul hk]
  rfl

theorem defaultRange?_rescale (hk : 0 < k) (m : Model V α) (c : α) :
    defaultRange? ((m.scale k).addOffset c) =
      (defaultRange? m).map fun r => (r.1 / k, r.2 / k) := by
  have hfield : maxField ((m.scale k).addOffset c) = maxField m * k := maxField_scale hk m
  have hmin : minBias? ((m.scale k).addOffset c) = (minBias? m).map (· * k) := minBias?_scale hk m
  have hpos : 0 < maxField m * k ↔ 0 < maxField m := mul_pos_iff_of_pos_right hk
  rw [defaultRange?, defaultRange?, hfield, hmin]
  cases minBias? m with
  | none => rfl
  | some smallest =>
    simp only [Option.map_some, hpos, isFinite_eq, and_true]
    split
    · simp only [Option.map_some, ← mul_assoc, div_mul_eq_div_div]
      rfl
    · rfl

theorem place_div (hk : k ≠ 0) (i : Interpolation) (r : α × α) (count : Nat) :
    i.place (r.1 / k, r.2 / k) count = (i.place r count).map (· / k) := by
  cases i with
  | geometric =>
    simp only [Interpolation.place, geometric, div_div_div_cancel_right₀ hk]
    split
    · rfl
    · rw [List.map_map]
      exact List.map_congr_left fun j _ => div_mul_eq_mul_div _ _ _
  | linear =>
    simp only [Interpolation.place, linear]
    split
    · rfl
    · rw [List.map_map]
      refine List.map_congr_left fun j _ => ?_
      rw [Function.comp_apply]
      ring

end Range

section Decisions

variable [Generator γ]

theorem accepts_rescale (hk : 0 < k) (beta change : α) (g : γ) :
    accepts (beta / k) (k * change) g = accepts beta change g := by
  have hlimit : quotientLt acceptanceLimit (beta / k) (k * change) =
      quotientLt acceptanceLimit beta change := by
    rw [Bool.eq_iff_iff, quotientLt_iff, quotientLt_iff, div_div_eq_mul_div,
      mul_comm acceptanceLimit, mul_div_assoc, mul_lt_mul_iff_right₀ hk, ne_eq, ne_eq,
      div_eq_zero_iff, or_iff_left hk.ne']
  have hsign : k * change ≤ 0 ↔ change ≤ 0 := by
    rw [← not_lt, ← not_lt, mul_pos_iff_of_pos_left hk]
  have hexponent : -(k * change) * (beta / k) = -change * beta := by
    field_simp
  simp only [accepts, hlimit, hsign, hexponent]

omit [Exact α] in
theorem proposals_map (f : α → α) (order : List Nat) (n : Nat) (schedule : List α) :
    proposals order n (schedule.map f) =
      (proposals order n schedule).map fun p => (f p.1, p.2) := by
  simp only [proposals, List.flatMap_map, List.map_flatMap, List.map_map]
  rfl

variable {energy energy' : PackedState → α} {f : α → α}

/-- Every proposal has the same answer in both runs, and the same draw. -/
def DecidesAlike (γ : Type) [Generator γ] (energy energy' : PackedState → α) (f : α → α) : Prop :=
  ∀ beta i s (g : γ), accepts (f beta) (energy' (s.toggle i) - energy' s) g =
    accepts beta (energy (s.toggle i) - energy s) g

theorem DecidesAlike.metropolis_eq (h : DecidesAlike γ energy energy' f) (ps : List (α × Nat))
    (x : PackedState × γ) :
    metropolis energy' (ps.map fun p => (f p.1, p.2)) x = metropolis energy ps x := by
  induction ps generalizing x with
  | nil => rfl
  | cons p ps ih =>
    rw [List.map_cons, metropolis, metropolis, h]
    exact ih _

theorem DecidesAlike.finalState_eq (h : DecidesAlike γ energy energy' f) (n sweepsPerBeta : Nat)
    (schedule : List α) (g : γ) :
    finalState energy' n sweepsPerBeta (schedule.map f) g =
      finalState energy n sweepsPerBeta schedule g := by
  rw [finalState, finalState, proposals_map, h.metropolis_eq]

/-- The automatic schedule follows the unit of energy. Where the energy is constant it does not, but
there each proposal is accepted in any case. -/
theorem exists_decidesAlike (hm : m.WellFormed) (hk : 0 < k) (c : α) {a : Annealer α}
    (ha : a.betas = .auto) :
    ∃ f, (a.run ((m.scale k).addOffset c)).schedule = (a.run m).schedule.map f ∧
      DecidesAlike γ m.energyAt ((m.scale k).addOffset c).energyAt f := by
  have hrange := defaultRange?_rescale hk m c
  cases h : defaultRange? m with
  | some r =>
    refine ⟨(· / k), ?_, fun beta i s g => ?_⟩
    · simp only [Annealer.run, Betas.scheduleFor, ha, hrange, h, Option.map_some, Option.getD_some,
        place_div hk.ne']
    · have hchange : k * m.energyAt (s.toggle i) + c - (k * m.energyAt s + c) =
          k * (m.energyAt (s.toggle i) - m.energyAt s) := by ring
      rw [m.energyAt_rescale, m.energyAt_rescale, hchange, accepts_rescale hk]
  | none =>
    have hflat := m.energyAt_eq_offset hm ((defaultRange?_eq_none_iff hm).1 h)
    refine ⟨id, ?_, fun beta i s g => ?_⟩
    · simp only [Annealer.run, Betas.scheduleFor, ha, hrange, h, Option.map_none, List.map_id]
    · simp only [m.energyAt_rescale, hflat, sub_self, id]

end Decisions

section Collections

variable {a : Annealer α} (hm : m.WellFormed) (hk : 0 < k) (c : α)

include hm hk

theorem read?_rescale [Generator γ] (ha : a.betas = .auto) (g : γ) :
    (a.run ((m.scale k).addOffset c)).read? g =
      ((a.run m).read? g).map (Solution.mapEnergy fun e => k * e + c) := by
  -- both reads start from the same random state and end in the same one
  obtain ⟨f, hschedule, hf⟩ := exists_decidesAlike (γ := γ) hm hk c ha
  obtain ⟨s, hs, hread⟩ := read?_eq hm a g
  obtain ⟨s', hs', hread'⟩ := read?_eq ((hm.scale k).addOffset c) a g
  have hnum : ((m.scale k).addOffset c).numVariables = m.numVariables := m.numVariables_scale k
  have hsame : s' = s := by rw [hs', hschedule, hnum, hf.finalState_eq, hs]
  rw [hread', hread, hsame, m.energyAt_rescale]
  rfl

theorem readAll?_rescale [Seedable γ] (ha : a.betas = .auto) (seeds : List UInt64) :
    Annealer.readAll? γ (a.run ((m.scale k).addOffset c)) seeds =
      (Annealer.readAll? γ (a.run m) seeds).map
        (List.map (Solution.mapEnergy fun e => k * e + c)) := by
  induction seeds with
  | nil => rfl
  | cons seed rest ih =>
    rw [Annealer.readAll?, Annealer.readAll?, read?_rescale hm hk c ha, ih]
    cases (a.run m).read? (Seedable.ofSeed seed : γ) with
    | none => rfl
    | some s => cases Annealer.readAll? γ (a.run m) rest <;> rfl

omit hm in
theorem ofSolutions?_rescale {solutions : List (Solution α)}
    (h : ∀ s ∈ solutions, ∃ e, s.energy = some e) :
    ofSolutions? ((m.scale k).addOffset c)
        (solutions.map (Solution.mapEnergy fun e => k * e + c)) =
      (ofSolutions? m solutions).map (mapEnergies fun e => k * e + c) := by
  refine ofSolutions?_mapEnergy rfl (m.labels_scale k) (fun x y => ?_) fun s hs => ?_
  · have hle : k * x + c ≤ k * y + c ↔ x ≤ y := by
      rw [add_le_add_iff_right, mul_le_mul_iff_right₀ hk]
    exact decide_eq_decide.2 hle
  · obtain ⟨e, he⟩ := h s hs
    simp only [Solution.energyIn?, Solution.mapEnergy, he, Option.map_some]

theorem collect?_rescale [Seedable μ] [Seedable γ] (ha : a.betas = .auto) (numReads : Nat)
    (seed : UInt64) :
    Annealer.collect? μ γ a ((m.scale k).addOffset c) numReads seed =
      (Annealer.collect? μ γ a m numReads seed).map (mapEnergies fun e => k * e + c) := by
  obtain ⟨solutions, hsolutions, henergies⟩ :=
    readAll?_eq (γ := γ) hm a (Annealer.readSeeds μ seed numReads)
  rw [Annealer.collect?, readAll?_rescale hm hk c ha, Annealer.collect?, hsolutions]
  exact ofSolutions?_rescale hk c henergies

omit hm in
theorem collectEmpty?_rescale (m : Model V α) (numReads : UInt64) :
    Annealer.collectEmpty? ((m.scale k).addOffset c) numReads =
      (Annealer.collectEmpty? m numReads).map (mapEnergies fun e => k * e + c) := by
  have hoffset : ((m.scale k).addOffset c).offset = k * m.offset + c :=
    congrArg (· + c) (mul_comm m.offset k)
  have hread : ∀ s ∈ [(⟨.zeros 0, some m.offset, numReads⟩ : Solution α)],
      ∃ e, s.energy = some e := by simp
  rw [Annealer.collectEmpty?, hoffset, Annealer.collectEmpty?, ← ofSolutions?_rescale hk c hread]
  rfl

end Collections

/-- Rescaling a model rescales the energies of what automatic annealing returns, and leaves all else
as it is: the samples, how often each occurred, and their order. -/
theorem sampleWith_rescale [DecidableEq V] [Seedable μ] [Seedable γ] (hm : m.Reachable)
    (hk : 0 < k) (c : α) {a : Annealer α} (hvalid : a.validate = .ok ())
    (hcancel : a.isCancelled = false) (ha : a.betas = .auto) {numReads : UInt64}
    (hreads : numReads ≠ 0) (fresh : UInt64) :
    ∃ set, a.sampleWith μ γ m numReads fresh = .ok set ∧
      a.sampleWith μ γ ((m.scale k).addOffset c) numReads fresh =
        .ok (set.mapEnergies fun e => k * e + c) := by
  have hisEmpty : ((m.scale k).addOffset c).isEmpty = m.isEmpty := by
    rw [Bool.eq_iff_iff, ← Model.labels_eq_nil_iff, ← Model.labels_eq_nil_iff,
      ← m.labels_scale k]
    rfl
  have hpos : 1 ≤ numReads.toNat := UInt64.lt_iff_toNat_lt.1 (UInt64.pos_iff_ne_zero.2 hreads)
  have hok : ∀ {m' : Model V α} {set}, _ → a.sampleWith μ γ m' numReads fresh = .ok set :=
    fun h => sampleWith_eq_ok_iff.2 ⟨hreads, hvalid, hcancel, h⟩
  cases hempty : m.isEmpty with
  | true =>
    obtain ⟨set, hset, -⟩ := exists_collectEmpty? hempty hpos
    refine ⟨set, hok (by rw [if_pos hempty, hset]), hok ?_⟩
    rw [if_pos (hisEmpty.trans hempty), collectEmpty?_rescale hk, hset, Option.map_some]
  | false =>
    obtain ⟨set, hset, -⟩ :=
      exists_collect? (μ := μ) (γ := γ) hm.wellFormed a hpos (a.seed.getD fresh)
    refine ⟨set, hok (by simp [hempty, hset]), hok ?_⟩
    rw [hisEmpty, hempty, if_neg Bool.false_ne_true, collect?_rescale hm.wellFormed hk c ha, hset,
      Option.map_some]

theorem sampleWith_rescale_three_spins :
    let m : Model Nat ℝ := (((Model.empty .spin).addVariable 5 (-2)).couple 5 1 3).couple 1 0 (-1)
    let a : Annealer ℝ := { numSweeps := 6, sweepsPerBeta := 2, interpolation := .linear }
    m.Reachable ∧ (0 : ℝ) < 1 / 2 ∧ a.validate = .ok () ∧ a.isCancelled = false ∧
      a.betas = .auto ∧ (4 : UInt64) ≠ 0 ∧
      ∃ set, a.sampleWith ChaCha20 Pcg64 m 4 9 = .ok set ∧
        a.sampleWith ChaCha20 Pcg64 ((m.scale (1 / 2)).addOffset (-3)) 4 9 =
          .ok (set.mapEnergies fun e => 1 / 2 * e + -3) := by
  intro m a
  have hm : m.Reachable :=
    .addInteraction (.addInteraction (.addVariable 5 (-2) (.empty .spin))
      (u := 5) (v := 1) (b := 3) rfl) (u := 1) (v := 0) (b := -1) rfl
  have hk : (0 : ℝ) < 1 / 2 := by norm_num
  have hvalid : a.validate = .ok () := by
    simp [a, Annealer.validate, Betas.isSchedule, Betas.validate]
  have hreads : (4 : UInt64) ≠ 0 := by decide
  exact ⟨hm, hk, hvalid, rfl, rfl, hreads, sampleWith_rescale hm hk (-3) hvalid rfl rfl hreads 9⟩

end Annealing

end BinaryQuadratic

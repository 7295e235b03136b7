import BinaryQuadratic.Proofs.Search.GroundStates
import BinaryQuadratic.Proofs.Search.Tour
import BinaryQuadratic.Proofs.Problem.Tour.Decomposition

/-! The two searches for a shortest tour: through all assignments of the penalized model and through
all orders of the cities. They agree where the default penalty outweighs whatever an assignment that
is no tour can gain from negative distances, and the tolerance of the first search. -/

namespace BinaryQuadratic

open Coefficient Finset

namespace Tour

variable {α : Type} [Exact α] {d : Distances α}

/-- The most that ones could gain from negative distances, if they were everywhere. -/
def saving (d : Distances α) : α :=
  ∑ i ∈ range d.length, ∑ k ∈ range d.length,
    if i = k then 0 else ∑ _slot ∈ range d.length, max 0 (-distance d i k)

theorem neg_max_le_mul (x : α) (b : Cell → Bool) (c c' : Cell) :
    -max 0 (-x) ≤ x * bitValues b c * bitValues b c' := by
  have hzero : 0 ≤ max 0 (-x) := le_max_left _ _
  have hgain : -x ≤ max 0 (-x) := le_max_right _ _
  rw [bitValues, bitValues]
  split_ifs <;> linarith

theorem neg_saving_le_travelled (d : Distances α) (b : Cell → Bool) :
    -saving d ≤ travelled d b := by
  rw [saving, travelled, ← Finset.sum_neg_distrib]
  refine Finset.sum_le_sum fun i _ => ?_
  rw [← Finset.sum_neg_distrib]
  refine Finset.sum_le_sum fun k _ => ?_
  split
  · exact neg_zero.le
  · rw [← Finset.sum_neg_distrib]
    exact Finset.sum_le_sum fun slot _ => neg_max_le_mul _ b _ _

theorem saving_eq_zero (h : ∀ i < d.length, ∀ k < d.length, i ≠ k → 0 ≤ distance d i k) :
    saving d = 0 := by
  refine Finset.sum_eq_zero fun i hi => Finset.sum_eq_zero fun k hk => ?_
  split
  · rfl
  · next hik =>
    have hnonneg := h i (Finset.mem_range.1 hi) k (Finset.mem_range.1 hk) hik
    simp [hnonneg]

theorem sub_saving_le_cost {b : Cell → Bool} (h : ¬∃ t, Encodes b d.length t) :
    2 * defaultPenalty d - saving d ≤ cost d b := by
  have hexcess : (2 : α) ≤ (excess b d.length : Int) := by exact_mod_cast two_le_excess h
  have hpenalty := mul_le_mul_of_nonneg_left hexcess (defaultPenalty_pos d).le
  have htravelled := neg_saving_le_travelled d b
  rw [cost]
  linarith

end Tour

namespace Search

open Tour SampleSet

variable {α : Type} [Exact α] {d : Distances α} {g : GroundStates Cell α} {t : List Nat}

theorem exists_shortestTour (hvalid : validate d = .ok ()) (hn : d.length ≤ maxEnumeratedCities) :
    ∃ t, shortestTour d = .ok (t, tourLength d t) ∧ IsShortest d t := by
  obtain ⟨hne, hsquare, -⟩ := validate_eq_ok_iff.1 hvalid
  obtain ⟨t, x, hshortest, -, hdistance, ht⟩ := exists_shortest? hsquare hne
  obtain rfl := Option.some.inj ((tourDistance?_eq hsquare ht.1).symm.trans hdistance)
  refine ⟨t, ?_, ht⟩
  rw [shortestTour, hvalid]
  simp only [Except.mapError, if_neg (not_lt.2 hn), hshortest]
  rfl

theorem cost_eq_tourLength (htwo : 2 ≤ d.length) {b : Cell → Bool} (h : Encodes b d.length t) :
    cost d b = tourLength d t := by
  have hcost := cost_add_loop h
  rwa [loop, if_neg (by omega), add_zero] at hcost

structure Agrees (d : Distances α) (g : GroundStates Cell α) (x : α) : Prop where
  energy_eq : g.energy = x
  exists_decode : ∀ s ∈ g.samples, ∃ t, decode? s.assignment d.length = some t

structure LeastCosts (d : Distances α) (g : GroundStates Cell α) : Prop where
  isLeast : IsLeast (Set.range (cost d)) g.energy
  exists_decode_iff : (∀ s ∈ g.samples, ∃ t, decode? s.assignment d.length = some t) ↔
    ∀ b, cost d b - g.energy ≤ tolerance g.energy → ∃ t, Encodes b d.length t

theorem Enumerated.leastCosts (hsquare : ∀ row ∈ d, row.length = d.length)
    (hg : Enumerated (weightedModel d (defaultPenalty d)) g) : LeastCosts d g := by
  have hlabels := labels_weightedModel hsquare (defaultPenalty d)
  have hvartype := vartype_weightedModel hsquare (defaultPenalty d)
  have hcost : ∀ b : Cell → Bool, (weightedModel d (defaultPenalty d)).energyAt
      (.ofBits ((weightedModel d (defaultPenalty d)).labels.map b)) = cost d b := fun b => by
    rw [Model.energyAt_ofBits, hvartype]
    simp only [value_binary]
    exact evaluate_weightedModel hsquare _ b
  have hdecode : ∀ (b : Cell → Bool) (s : Sample Cell),
      sampleOf (weightedModel d (defaultPenalty d))
        (.ofBits ((weightedModel d (defaultPenalty d)).labels.map b)) = s →
      ∀ t, decode? s.assignment d.length = some t ↔ Encodes b d.length t := fun b s hs t => by
    obtain ⟨-, hassigned⟩ := sampleOf_ofBits_eq_iff.1 hs
    rw [hlabels, hvartype] at hassigned
    exact decode?_eq_some_iff_of_bits hassigned
  constructor
  · simpa only [hcost] using hg.isLeast
  · simp only [hg.mem_samples_iff, hcost]
    constructor
    · intro h b hle
      obtain ⟨t, ht⟩ := h _ ⟨b, rfl, hle⟩
      exact ⟨t, (hdecode b _ rfl t).1 ht⟩
    · rintro h s ⟨b, hs, hle⟩
      obtain ⟨t, ht⟩ := h b hle
      exact ⟨t, (hdecode b s hs t).2 ht⟩

theorem exists_leastCosts (hsquare : ∀ row ∈ d, row.length = d.length) (hfour : d.length ≤ 4) :
    ∃ g, groundStates (weightedModel d (defaultPenalty d)) = .ok g ∧ LeastCosts d g := by
  have hn : (weightedModel d (defaultPenalty d)).numVariables ≤ maxEnumeratedVariables := by
    rw [← Model.length_labels, labels_weightedModel hsquare, length_cells]
    exact (Nat.mul_le_mul hfour hfour).trans (by decide)
  obtain ⟨g, hground, hg⟩ := exists_groundStates (adds_weightedModel hsquare _).wellFormed hn
  exact ⟨g, hground, hg.leastCosts hsquare⟩

section Agreement

variable (h : LeastCosts d g) (hsquare : ∀ row ∈ d, row.length = d.length)
  (htwo : 2 ≤ d.length) (ht : IsShortest d t)

include h htwo ht

theorem LeastCosts.energy_le : g.energy ≤ tourLength d t := by
  rw [← cost_eq_tourLength htwo (encodes_assignmentOf ht.1)]
  exact h.isLeast.2 ⟨_, rfl⟩

include hsquare

theorem LeastCosts.energy_eq
    (hall : ∀ b, (¬∃ t, Encodes b d.length t) → tourLength d t ≤ cost d b) :
    g.energy = tourLength d t := by
  obtain ⟨b, hb⟩ := h.isLeast.1
  refine le_antisymm (h.energy_le htwo ht) ?_
  rw [← hb]
  by_cases htour : ∃ t', Encodes b d.length t'
  · obtain ⟨t', ht'⟩ := htour
    rw [cost_eq_tourLength htwo ht']
    exact ((isShortest_iff hsquare).1 ht).2 t' ht'.perm
  · exact hall b htour

theorem LeastCosts.agrees_iff : Agrees d g (tourLength d t) ↔
    ∀ b, (¬∃ t, Encodes b d.length t) →
      tourLength d t + tolerance (tourLength d t) < cost d b := by
  constructor
  · rintro ⟨henergy, hdecode⟩ b hnone
    by_contra hcost
    refine hnone (h.exists_decode_iff.1 hdecode b ?_)
    rw [henergy]
    linarith
  · intro hall
    have htolerance : 0 ≤ tolerance (tourLength d t) := by
      rw [tolerance_eq]
      positivity
    have henergy : g.energy = tourLength d t := h.energy_eq hsquare htwo ht fun b hnone =>
      (le_add_of_nonneg_right htolerance).trans (hall b hnone).le
    refine ⟨henergy, h.exists_decode_iff.2 fun b hcost => by_contra fun hnone => ?_⟩
    have hlt := hall b hnone
    rw [henergy] at hcost
    linarith

theorem LeastCosts.agrees_of_lt
    (hlt : tourLength d t + saving d + tolerance (tourLength d t) < 2 * defaultPenalty d) :
    Agrees d g (tourLength d t) := by
  refine (h.agrees_iff hsquare htwo ht).2 fun b hnone => ?_
  have hcost := sub_saving_le_cost hnone
  linarith

end Agreement

theorem forall_no_tour_iff (hsquare : ∀ row ∈ d, row.length = d.length) (y : α) :
    (∀ s : Assignment Cell, s.InDomain .binary (cells d.length) → decode? s d.length = none →
      ∃ e, (weightedModel d (defaultPenalty d)).energy s = .ok e ∧ y < e) ↔
    ∀ b, (¬∃ t, Encodes b d.length t) → y < cost d b := by
  constructor
  · intro hall b hnone
    have hs := Assignment.inDomain_ofBits .binary b (cells d.length)
    have hdecode : decode? (.ofBits .binary b) d.length = none :=
      Option.eq_none_iff_forall_ne_some.2 fun t' ht' =>
        hnone ⟨t', Assignment.bit_ofBits .binary b ▸ (decode?_eq_some_iff hs).1 ht'⟩
    obtain ⟨e, he, hlt⟩ := hall _ hs hdecode
    obtain rfl := Except.ok.inj ((energy_weightedModel hsquare _ hs).symm.trans he)
    rwa [Assignment.bit_ofBits] at hlt
  · intro hall s hs hnone
    refine ⟨_, energy_weightedModel hsquare _ hs, hall _ ?_⟩
    rintro ⟨t', ht'⟩
    cases hnone.symm.trans ((decode?_eq_some_iff hs).2 ht')

theorem tourLength_nonneg (htwo : 2 ≤ d.length) (hsaving : saving d = 0)
    (ht : t.Perm (List.range d.length)) : 0 ≤ tourLength d t := by
  rw [← travelled_add_loop (encodes_assignmentOf ht), loop, if_neg (by omega), add_zero]
  have hgain := neg_saving_le_travelled d ((assignmentOf t).bit .binary)
  rwa [hsaving, neg_zero] at hgain

theorem tolerance_lt_defaultPenalty (hnonneg : 0 ≤ tourLength d t)
    (hpenalty : 1 / 10 ^ 9 < defaultPenalty d) :
    tolerance (tourLength d t) < defaultPenalty d := by
  have hlength := tourLength_le_defaultPenalty d t
  rw [div_lt_iff₀ (by positivity)] at hpenalty
  rw [tolerance_eq, abs_of_nonneg hnonneg, div_lt_iff₀ (by positivity)]
  exact max_lt hpenalty (by linarith)

/-- The lowest energy of the penalized model is no more than the length of a shortest tour. It is
that length, and the search finds only tours, exactly if whatever is no tour has an energy beyond
the tolerance. The default penalty sees to that unless distances are negative or very small. -/
theorem groundStates_agree_iff (hvalid : validate d = .ok ()) (htwo : 2 ≤ d.length)
    (hfour : d.length ≤ 4) :
    ∃ m g t x, model d none = .ok m ∧ groundStates m = .ok g ∧ shortestTour d = .ok (t, x) ∧
      g.energy ≤ x ∧
      (Agrees d g x ↔ ∀ s : Assignment Cell, s.InDomain m.vartype m.labels →
        decode? s d.length = none → ∃ e, m.energy s = .ok e ∧ x + max 1 |x| / 10 ^ 9 < e) ∧
      (x + saving d + max 1 |x| / 10 ^ 9 < 2 * defaultPenalty d → Agrees d g x) ∧
      ((∀ i < d.length, ∀ k < d.length, i ≠ k → 0 ≤ distance d i k) →
        1 / 10 ^ 9 < defaultPenalty d → Agrees d g x) := by
  obtain ⟨hne, hsquare, -⟩ := validate_eq_ok_iff.1 hvalid
  obtain ⟨t, hshortest, ht⟩ := exists_shortestTour hvalid (hfour.trans (by decide))
  obtain ⟨g, hground, h⟩ := exists_leastCosts hsquare hfour
  simp only [← tolerance_eq]
  refine ⟨_, g, t, _, model_eq hsquare hne, hground, hshortest, h.energy_le htwo ht, ?_,
    h.agrees_of_lt hsquare htwo ht, fun hnonneg hpenalty => ?_⟩
  · rw [h.agrees_iff hsquare htwo ht, ← forall_no_tour_iff hsquare, vartype_weightedModel hsquare,
      labels_weightedModel hsquare]
  · have hsaving := saving_eq_zero hnonneg
    have hlength := tourLength_le_defaultPenalty d t
    have htolerance := tolerance_lt_defaultPenalty (tourLength_nonneg htwo hsaving ht.1) hpenalty
    refine h.agrees_of_lt hsquare htwo ht ?_
    rw [hsaving]
    linarith

theorem groundStates_agree_three_cities :
    let d : Distances ℝ := [[0, 1, 2], [2, 0, 1], [1, 2, 0]]
    validate d = .ok () ∧ 2 ≤ d.length ∧ d.length ≤ 4 ∧
      ∃ m g t x, model d none = .ok m ∧ groundStates m = .ok g ∧ shortestTour d = .ok (t, x) ∧
        Agrees d g x := by
  intro d
  have hvalid : validate d = .ok () :=
    validate_eq_ok_iff.2 ⟨List.cons_ne_nil _ _, by simp [d], fun _ _ _ _ => rfl⟩
  have htwo : 2 ≤ d.length := by decide
  have hfour : d.length ≤ 4 := by decide
  have hnonneg : ∀ i < d.length, ∀ k < d.length, i ≠ k → 0 ≤ distance d i k :=
    fun i _ k _ _ => distance_nonneg (by norm_num [d]) i k
  have hpenalty : 1 / 10 ^ 9 < defaultPenalty d := by
    norm_num [defaultPenalty, maxNum_eq_max, d]
  obtain ⟨m, g, t, x, hm, hground, hshortest, -, -, -, hagrees⟩ :=
    groundStates_agree_iff hvalid htwo hfour
  exact ⟨hvalid, htwo, hfour, m, g, t, x, hm, hground, hshortest, hagrees hnonneg hpenalty⟩

/-- Without any positive distance the penalty is one. All cities at all slots pay it four times, but
gain two tours. -/
theorem groundStates_below_shortestTour :
    let d : Distances ℝ := [[0, -10], [-10, 0]]
    validate d = .ok () ∧ 2 ≤ d.length ∧ d.length ≤ 4 ∧
      ∃ m g t x, model d none = .ok m ∧ groundStates m = .ok g ∧ shortestTour d = .ok (t, x) ∧
        g.energy ≤ -36 ∧ x = -20 ∧ g.energy ≠ x := by
  intro d
  have hvalid : validate d = .ok () :=
    validate_eq_ok_iff.2 ⟨List.cons_ne_nil _ _, by simp [d], fun _ _ _ _ => rfl⟩
  obtain ⟨hne, hsquare, -⟩ := validate_eq_ok_iff.1 hvalid
  obtain ⟨t, hshortest, ht⟩ := exists_shortestTour hvalid (by decide)
  obtain ⟨g, hground, h⟩ := exists_leastCosts hsquare (by decide)
  have hpenalty : defaultPenalty d = 1 := by
    norm_num [defaultPenalty, maxNum_eq_max, d]
  have hexcess : excess (fun _ => true) d.length = 4 := by decide
  have hcost : cost d (fun _ => true) = -36 := by
    rw [cost, hpenalty, hexcess]
    norm_num [travelled, Finset.sum_range_succ, bitValues, distance, distance?, d]
  have hlength : tourLength d t = -20 := by
    have horder : t ∈ [[0, 1], [1, 0]] := List.mem_permutations'.2 ht.1
    rcases List.mem_pair.1 horder with rfl | rfl <;>
      norm_num [tourLength, Finset.sum_range_succ, distance, distance?, d]
  have henergy : g.energy ≤ -36 := hcost ▸ h.isLeast.2 ⟨_, rfl⟩
  exact ⟨hvalid, by decide, by decide, _, g, t, _, model_eq hsquare hne, hground,
    hshortest, henergy, hlength, by linarith⟩

end Search

end BinaryQuadratic

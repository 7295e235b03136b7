import BinaryQuadratic.Proofs.Search.GroundStates
import BinaryQuadratic.Proofs.Model.History
import BinaryQuadratic.Proofs.SampleSet

/-! Exhaustive search in another unit of energy. The states of least energy stay the same, but the
tolerance follows the unit only from energy one on. Below that it is absolute: a larger unit lets
further assignments pass for minimal ones. -/

namespace BinaryQuadratic

open Coefficient

namespace Model

variable {V α : Type} [Exact α] {m : Model V α} {k : α}

theorem WellFormed.isGround_scale_iff (h : m.WellFormed) (hk : 0 < k) {s : Assignment V}
    (hs : s.InDomain m.vartype m.labels) : (m.scale k).IsGround s ↔ m.IsGround s := by
  have henergy : ∀ s : Assignment V, s.InDomain m.vartype m.labels →
      m.energy s = .ok (m.energyAt (.ofBits (m.labels.map (s.bit m.vartype)))) :=
    fun _ hs => h.energy_eq_energyAt hs
  have hdomain : ∀ s : Assignment V, s.InDomain (m.scale k).vartype (m.scale k).labels →
      s.InDomain m.vartype m.labels := fun _ hs => labels_scale m k ▸ hs
  rw [isGround_iff henergy hs, isGround_iff
    (fun s hs => h.energy_scale (hdomain s hs) (henergy s (hdomain s hs)) k)
    (labels_scale m k ▸ hs), labels_scale]
  exact forall₂_congr fun _ _ => mul_le_mul_iff_right₀ hk

end Model

namespace Search

open SampleSet

variable {V α : Type} [Exact α] {m : Model V α} {k : α}

section Enumeration

theorem samplesWithin_sublist (m : Model V α) (energy : α) {slack slack' : α} (h : slack ≤ slack') :
    (samplesWithin m energy slack).Sublist (samplesWithin m energy slack') := by
  refine (List.monotone_filter_right _ fun j hj => ?_).map _
  rw [decide_eq_true_eq] at hj ⊢
  exact hj.trans h

theorem nearby_eq_samplesWithin [DecidableEq V] (m : Model V α) (energy : α) :
    nearby m (allEnergies m) energy = samplesWithin m energy (max 1 |energy| / 10 ^ 9) := by
  rw [nearby_allEnergies, tolerance_eq, samplesWithin]

theorem energyOfNumber_scale (m : Model V α) (k : α) (j : Nat) :
    energyOfNumber (m.scale k) j = k * energyOfNumber m j := by
  rw [energyOfNumber, Model.numVariables_scale, Model.energyAt_scale]
  rfl

theorem sampleOf_scale (m : Model V α) (k : α) : sampleOf (m.scale k) = sampleOf m := by
  have hvartype : (m.scale k).vartype = m.vartype := rfl
  exact funext (sampleOf_congr hvartype (m.labels_scale k))

theorem sub_le_tolerance_mul_iff (hk : 0 < k) {e energy : α} :
    k * e - k * energy ≤ tolerance (k * energy) ↔ e - energy ≤ max (1 / k) |energy| / 10 ^ 9 := by
  have hmax : max 1 (k * |energy|) = k * max (1 / k) |energy| := by
    rw [mul_max_of_nonneg _ _ hk.le, mul_one_div_cancel hk.ne']
  rw [tolerance_eq, abs_mul, abs_of_pos hk, hmax, mul_div_assoc, ← mul_sub,
    mul_le_mul_iff_right₀ hk]

theorem nearby_scale [DecidableEq V] (hk : 0 < k) (m : Model V α) (energy : α) :
    nearby (m.scale k) (allEnergies (m.scale k)) (k * energy) =
      samplesWithin m energy (max (1 / k) |energy| / 10 ^ 9) := by
  rw [nearby_allEnergies, samplesWithin, Model.numVariables_scale, sampleOf_scale]
  simp only [energyOfNumber_scale, sub_le_tolerance_mul_iff hk]

end Enumeration

variable [DecidableEq V]

def Within (m : Model V α) (energy slack : α) (x : Sample V) : Prop :=
  x.keys = m.labels ∧ x.assignment.InDomain m.vartype m.labels ∧
    ∃ e, m.energy x.assignment = .ok e ∧ e - energy ≤ slack

structure Rescaled (m : Model V α) (k : α) (g g' : GroundStates V α) : Prop where
  energy_eq : g'.energy = k * g.energy
  mem_samples_iff : ∀ x, x ∈ g.samples ↔ Within m g.energy (max 1 |g.energy| / 10 ^ 9) x
  mem_samples_iff_of_scale :
    ∀ x, x ∈ g'.samples ↔ Within m g.energy (max (1 / k) |g.energy| / 10 ^ 9) x
  sublist_of_one_le : 1 ≤ k → g'.samples.Sublist g.samples
  sublist_of_le_one : k ≤ 1 → g.samples.Sublist g'.samples
  samples_eq_iff : g'.samples = g.samples ↔ ∀ x, Within m g.energy (max 1 |g.energy| / 10 ^ 9) x ↔
    Within m g.energy (max (1 / k) |g.energy| / 10 ^ 9) x
  samples_eq_of_one_le : 1 ≤ |g.energy| → 1 ≤ k * |g.energy| → g'.samples = g.samples
  isGround_iff : ∀ x : Sample V, x.keys = m.labels → x.assignment.InDomain m.vartype m.labels →
    ((m.scale k).IsGround x.assignment ↔ m.IsGround x.assignment) ∧
      (m.IsGround x.assignment → x ∈ g.samples ∧ x ∈ g'.samples)

theorem mem_samplesWithin_iff (h : m.WellFormed) {energy slack : α} {x : Sample V} :
    x ∈ samplesWithin m energy slack ↔ Within m energy slack x := mem_samplesWithin_iff_energy h

theorem eq_of_sublist_of_nodup {β : Type} {l l' : List β} (h : l.Sublist l') (hnodup : l'.Nodup)
    (hmem : ∀ x ∈ l', x ∈ l) : l = l' :=
  h.eq_of_length_le (hnodup.subperm hmem).length_le

theorem samplesWithin_eq_iff (h : m.WellFormed) {energy slack slack' : α} :
    samplesWithin m energy slack' = samplesWithin m energy slack ↔
      ∀ x, Within m energy slack x ↔ Within m energy slack' x := by
  simp only [← mem_samplesWithin_iff h]
  constructor
  · intro heq x
    rw [heq]
  · intro hmem
    rcases le_total slack' slack with hle | hle
    · exact eq_of_sublist_of_nodup (samplesWithin_sublist m energy hle)
        (nodup_samplesWithin m energy slack) fun x => (hmem x).1
    · exact (eq_of_sublist_of_nodup (samplesWithin_sublist m energy hle)
        (nodup_samplesWithin m energy slack') fun x => (hmem x).2).symm

theorem Enumerated.within_of_isGround {g : GroundStates V α} (h : m.WellFormed)
    (hg : Enumerated m g) {slack : α} (hslack : 0 ≤ slack) {x : Sample V}
    (hkeys : x.keys = m.labels) (hx : x.assignment.InDomain m.vartype m.labels)
    (hground : m.IsGround x.assignment) : Within m g.energy slack x := by
  obtain ⟨e, he, hleast⟩ := hground
  obtain ⟨s, hs, hs'⟩ := hg.exists_energy_eq h
  obtain ⟨e', he', hle⟩ := hleast s hs
  obtain rfl := Except.ok.inj (hs'.symm.trans he')
  exact ⟨hkeys, hx, e, he, (sub_nonpos.2 hle).trans hslack⟩

omit [DecidableEq V] in
theorem Enumerated.energy_of_scale {g g' : GroundStates V α} (hg : Enumerated m g)
    (hg' : Enumerated (m.scale k) g') (hk : 0 < k) : g'.energy = k * g.energy := by
  have hleast := (monotone_mul_left_of_nonneg hk.le).map_isLeast hg.isLeast
  have hleast' := hg'.isLeast
  simp only [Model.labels_scale, Model.energyAt_scale] at hleast'
  rw [← Set.range_comp] at hleast
  exact hleast'.unique hleast

section OneBit

def oneBit (b c : α) : Model Nat α := ((Model.empty .binary).addVariable 0 b).addOffset c

theorem reachable_oneBit (b c : α) : (oneBit b c).Reachable :=
  .addOffset c (.addVariable 0 b (.empty .binary))

theorem evaluate_oneBit (b c : α) (x : Nat → α) : (oneBit b c).evaluate x = b * x 0 + c := by
  rw [oneBit, Model.evaluate_addOffset, (Model.wellFormed_empty .binary).evaluate_addVariable,
    Model.evaluate_empty, zero_add]

theorem Enumerated.energy_oneBit {b c : α} (hb : 0 ≤ b) {g : GroundStates Nat α}
    (hg : Enumerated (oneBit b c) g) : g.energy = c := by
  have henergy : ∀ f : Nat → Bool, (oneBit b c).energyAt (.ofBits ((oneBit b c).labels.map f)) =
      (if f 0 then b else 0) + c := fun f => by
    rw [Model.energyAt_ofBits, evaluate_oneBit]
    show b * ((Vartype.binary.value (f 0) : Int) : α) + c = _
    rw [value_binary, mul_ite, mul_one, mul_zero]
  obtain ⟨f, hf⟩ := hg.isLeast.1
  have hle := hg.isLeast.2 ⟨fun _ => false, henergy _⟩
  have hge : c ≤ g.energy := by
    rw [← hf]
    simp only [henergy]
    split
    · exact le_add_of_nonneg_left hb
    · exact (zero_add c).ge
  exact le_antisymm (hle.trans (by simp)) hge

def oneSample : Sample Nat := .ofList [(0, 1)]

theorem inDomain_oneSample : oneSample.assignment.InDomain .binary [0] := by
  intro v hv
  obtain rfl := List.mem_singleton.1 hv
  exact ⟨true, rfl⟩

theorem energy_oneSample (b c : α) : (oneBit b c).energy oneSample.assignment = .ok (b + c) := by
  have hvartype : (oneBit b c).vartype = .binary := rfl
  have hbit : oneSample.assignment.bit .binary 0 = true := by decide
  rw [(reachable_oneBit b c).wellFormed.energy_eq inDomain_oneSample, evaluate_oneBit, hvartype,
    hbit, value_binary, if_pos rfl, mul_one]

end OneBit

/-- Another unit of energy rescales the lowest energy. It keeps the samples too, except for those
whose energies lie between the tolerances of the two units. -/
theorem groundStates_scale (hm : m.Reachable) (hk : 0 < k) (hn : m.numVariables ≤ 20) :
    ∃ g g' : GroundStates V α, groundStates m = .ok g ∧ groundStates (m.scale k) = .ok g' ∧
      Rescaled m k g g' := by
  have h := hm.wellFormed
  obtain ⟨g, hground, hg⟩ := exists_groundStates h hn
  obtain ⟨g', hground', hg'⟩ := exists_groundStates (h.scale k) (m.numVariables_scale k ▸ hn)
  have henergy := hg.energy_of_scale hg' hk
  have hsamples : g.samples = samplesWithin m g.energy (max 1 |g.energy| / 10 ^ 9) := by
    rw [samples_eq h hground, nearby_eq_samplesWithin]
  have hsamples' : g'.samples = samplesWithin m g.energy (max (1 / k) |g.energy| / 10 ^ 9) := by
    rw [samples_eq (h.scale k) hground', henergy, nearby_scale hk]
  have hslack : ∀ {a b : α}, a ≤ b → max a |g.energy| / 10 ^ 9 ≤ max b |g.energy| / 10 ^ 9 :=
    fun hab => div_le_div_of_nonneg_right (max_le_max_right _ hab) (by positivity)
  refine ⟨g, g', hground, hground',
    { energy_eq := henergy
      mem_samples_iff := fun x => by rw [hsamples, mem_samplesWithin_iff h]
      mem_samples_iff_of_scale := fun x => by rw [hsamples', mem_samplesWithin_iff h]
      sublist_of_one_le := fun hone => ?_
      sublist_of_le_one := fun hone => ?_
      samples_eq_iff := by rw [hsamples, hsamples', samplesWithin_eq_iff h]
      samples_eq_of_one_le := fun hone hone' => ?_
      isGround_iff := fun x hkeys hx => ⟨h.isGround_scale_iff hk hx, fun hx' => ?_⟩ }⟩
  · rw [hsamples, hsamples']
    exact samplesWithin_sublist m _ (hslack ((div_le_one hk).2 hone))
  · rw [hsamples, hsamples']
    exact samplesWithin_sublist m _ (hslack ((one_le_div hk).2 hone))
  · have hunit : 1 / k ≤ |g.energy| := (div_le_iff₀' hk).2 hone'
    rw [hsamples, hsamples', max_eq_right hone, max_eq_right hunit]
  · have hwithin : ∀ slack : α, 0 ≤ slack → Within m g.energy slack x := fun _ hslack =>
      hg.within_of_isGround h hslack hkeys hx hx'
    rw [hsamples, hsamples', mem_samplesWithin_iff h, mem_samplesWithin_iff h]
    exact ⟨hwithin _ (by positivity), hwithin _ (by positivity)⟩

theorem groundStates_scale_one_bit :
    let m : Model Nat ℝ := oneBit 1 (-3)
    m.Reachable ∧ (0 : ℝ) < 1 / 2 ∧ m.numVariables ≤ 20 ∧
      ∃ g g', groundStates m = .ok g ∧ groundStates (m.scale (1 / 2)) = .ok g' ∧
        Rescaled m (1 / 2) g g' ∧ g.energy = -3 ∧ g'.energy = -3 / 2 ∧ g'.samples = g.samples ∧
          oneSample ∉ g'.samples := by
  intro m
  have hm : m.Reachable := reachable_oneBit _ _
  have hn : m.numVariables ≤ 20 := by decide
  have hk : (0 : ℝ) < 1 / 2 := by norm_num
  obtain ⟨g, g', hground, hground', h⟩ := groundStates_scale hm hk hn
  obtain ⟨g₁, hground₁, hg⟩ := exists_groundStates hm.wellFormed hn
  obtain rfl := Except.ok.inj (hground₁.symm.trans hground)
  have henergy : g₁.energy = -3 := hg.energy_oneBit (by norm_num)
  have hsamples : g'.samples = g₁.samples :=
    h.samples_eq_of_one_le (by norm_num [henergy]) (by norm_num [henergy])
  refine ⟨hm, hk, hn, g₁, g', hground, hground', h, henergy, ?_, hsamples, fun hmem => ?_⟩
  · rw [h.energy_eq, henergy]
    norm_num
  · obtain ⟨-, -, e, he, hle⟩ := (h.mem_samples_iff _).1 (hsamples ▸ hmem)
    obtain rfl := Except.ok.inj ((energy_oneSample 1 (-3)).symm.trans he)
    norm_num [henergy] at hle

/-- A bias of a ten-billionth is lost in the tolerance, but not in a unit as small as itself. -/
theorem samples_ne_of_scale :
    let m : Model Nat ℝ := oneBit (1 / 10 ^ 10) 0
    m.Reachable ∧ m.numVariables ≤ 20 ∧ (0 : ℝ) < 10 ^ 10 ∧
      ∃ g g', groundStates m = .ok g ∧ groundStates (m.scale (10 ^ 10)) = .ok g' ∧
        g'.samples ≠ g.samples := by
  intro m
  have hm : m.Reachable := reachable_oneBit _ _
  have hn : m.numVariables ≤ 20 := by decide
  have hk : (0 : ℝ) < 10 ^ 10 := by norm_num
  obtain ⟨g, hground, hg⟩ := exists_groundStates hm.wellFormed hn
  obtain ⟨g', hground', hg'⟩ := exists_groundStates (hm.wellFormed.scale (10 ^ 10)) hn
  have henergy : g.energy = 0 := hg.energy_oneBit (by norm_num)
  have henergy' : g'.energy = 0 := by rw [hg.energy_of_scale hg' hk, henergy, mul_zero]
  have hone := energy_oneSample (1 / 10 ^ 10 : ℝ) 0
  have hone' := hm.wellFormed.energy_scale inDomain_oneSample hone (10 ^ 10)
  have hmem : oneSample ∈ g.samples := by
    rw [hg.mem_samples_iff_energy hm.wellFormed, henergy]
    exact ⟨rfl, inDomain_oneSample, _, hone, by norm_num⟩
  have hnot : oneSample ∉ g'.samples := by
    rw [hg'.mem_samples_iff_energy (hm.wellFormed.scale _), henergy']
    rintro ⟨-, -, e, he, hle⟩
    obtain rfl := Except.ok.inj (hone'.symm.trans he)
    norm_num at hle
  exact ⟨hm, hn, hk, g, g', hground, hground', fun heq => hnot (heq ▸ hmem)⟩

end Search

end BinaryQuadratic

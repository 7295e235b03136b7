import BinaryQuadratic.Proofs.Model.Assignment
import BinaryQuadratic.Proofs.Problem.Penalty
import BinaryQuadratic.Proofs.SampleSet.Merging
import BinaryQuadratic.Search.GroundStates

/-! The numbers below a power of two spell all states, so that a search through them meets the
lowest energy and each assignment that comes close to it. -/

namespace BinaryQuadratic

open Coefficient

section Numbers

theorem map_testBit_spelled (bits : List Bool) :
    (List.range bits.length).map (spelled bits).testBit = bits := by
  refine List.ext_getElem (by simp) fun i hi hi' => ?_
  simp [testBit_spelled, hi']

theorem PackedState.ofNumber_spelled {n : Nat} {bits : List Bool} (h : bits.length = n) :
    PackedState.ofNumber n (spelled bits) = .ofBits bits := by
  rw [ofNumber, ← h, map_testBit_spelled]

@[simp] theorem PackedState.len_ofNumber (n k : Nat) : (PackedState.ofNumber n k).len = n := by
  simp [ofNumber]

theorem PackedState.canonical_ofNumber (n k : Nat) : (PackedState.ofNumber n k).Canonical :=
  canonical_ofBits _

theorem PackedState.ofNumber_injOn (n : Nat) :
    Set.InjOn (PackedState.ofNumber n) (Set.Iio (Nat.pow 2 n)) := by
  intro k hk k' hk' h
  have hbits := congrArg bits h
  rw [ofNumber, ofNumber, bits_ofBits, bits_ofBits, List.map_inj_left] at hbits
  exact eq_of_testBit_eq_of_lt hk hk' fun i hi => hbits i (List.mem_range.2 hi)

variable {V α : Type} [DecidableEq V] (m : Model V α)

theorem Model.ofNumber_eq (k : Nat) : PackedState.ofNumber m.numVariables k =
    .ofBits (m.labels.map fun v => k.testBit (m.position v)) := by
  rw [PackedState.ofNumber]
  congr 1
  refine List.ext_getElem (by simp) fun i hi hi' => ?_
  have hi'' : i < m.labels.length := by simpa using hi'
  have hpos : m.position m.labels[i] = i := by
    rw [position, indexOf?_eq_some_iff.2 (List.getElem?_eq_getElem hi''), Option.getD_some]
  simp [hpos]

omit [DecidableEq V] in
theorem Model.exists_ofNumber_eq (b : V → Bool) : ∃ k < Nat.pow 2 m.numVariables,
    PackedState.ofNumber m.numVariables k = .ofBits (m.labels.map b) := by
  have hlen : (m.labels.map b).length = m.numVariables := by simp
  exact ⟨_, hlen ▸ spelled_lt (m.labels.map b), PackedState.ofNumber_spelled hlen⟩

end Numbers

namespace SampleSet

variable {V α : Type} [DecidableEq V] {m : Model V α}

theorem sampleOf_ofBits_eq_iff {b : V → Bool} {x : Sample V} :
    sampleOf m (.ofBits (m.labels.map b)) = x ↔
      x.keys = m.labels ∧ ∀ v ∈ m.labels, x.assignment v = some (m.vartype.value (b v)) := by
  have hlen : (PackedState.ofBits (m.labels.map b)).len = m.numVariables := by simp
  have hvalues : (sampleOf m (.ofBits (m.labels.map b))).values =
      m.labels.map fun v => m.vartype.value (b v) := by
    rw [values_sampleOf hlen, PackedState.values, PackedState.bits_ofBits, List.map_map]
    rfl
  have hkeys := keys_sampleOf hlen
  constructor
  · intro h
    rw [h] at hkeys hvalues
    rw [← hkeys] at hvalues ⊢
    exact ⟨rfl, OrderedMap.values_eq_map_iff.1 hvalues⟩
  · rintro ⟨hx, hassigned⟩
    refine OrderedMap.eq_of_keys_of_values (hkeys.trans hx.symm) ?_
    rw [hvalues, ← hx]
    exact (OrderedMap.values_eq_map_iff.2 (hx ▸ hassigned)).symm

end SampleSet

namespace Search

open SampleSet

variable {V α : Type}

section Spelling

variable [DecidableEq V]

theorem entries_spelledSample (m : Model V α) (k : Nat) : (spelledSample m k).entries =
    m.labels.zipIdx.map fun (v, i) => (v, m.vartype.value (k.testBit i)) := by
  refine OrderedMap.entries_ofList ?_
  rw [List.map_map]
  exact (List.zipIdx_map_fst 0 m.labels).symm ▸ m.nodup_labels

/-- A number spells a sample as it spells the state that the sample shows. -/
theorem sampleOf_ofNumber (m : Model V α) (k : Nat) :
    sampleOf m (.ofNumber m.numVariables k) = spelledSample m k := by
  have hlen := PackedState.len_ofNumber m.numVariables k
  refine OrderedMap.eq_of_keys_of_values ?_ ?_
  · rw [keys_sampleOf hlen, OrderedMap.keys, entries_spelledSample, List.map_map]
    exact (List.zipIdx_map_fst 0 m.labels).symm
  · rw [values_sampleOf hlen, OrderedMap.values, entries_spelledSample, PackedState.values,
      PackedState.ofNumber, PackedState.bits_ofBits]
    refine List.ext_getElem (by simp) fun i hi hi' => ?_
    simp

end Spelling

variable [Exact α] {m : Model V α}

def energyOfNumber (m : Model V α) (k : Nat) : α := m.energyAt (.ofNumber m.numVariables k)

def allEnergies (m : Model V α) : List α :=
  (List.range (Nat.pow 2 m.numVariables)).map (energyOfNumber m)

theorem energies?_eq (h : m.WellFormed) : m.energies? = some (allEnergies m) := by
  have hstates : (fun k => m.energyOfState? (.ofNumber m.numVariables k)) =
      fun k => pure (energyOfNumber m k) := by
    funext k
    exact h.energyOfState?_eq (by simp)
  rw [Model.energies?, hstates, List.mapM_pure]
  rfl

theorem nearby_allEnergies [DecidableEq V] (m : Model V α) (energy : α) :
    nearby m (allEnergies m) energy =
    ((List.range (Nat.pow 2 m.numVariables)).filter fun k =>
      energyOfNumber m k - energy ≤ tolerance energy).map fun k =>
        sampleOf m (.ofNumber m.numVariables k) := by
  have hzip : (allEnergies m).zipIdx = (List.range (Nat.pow 2 m.numVariables)).map fun k =>
      (energyOfNumber m k, k) := by
    refine List.ext_getElem (by simp [allEnergies]) fun i hi hi' => ?_
    simp [allEnergies]
  rw [nearby, hzip, List.filter_map, List.map_map]
  exact List.map_congr_left fun k _ => (sampleOf_ofNumber m k).symm

def samplesWithin (m : Model V α) (energy slack : α) : List (Sample V) :=
  ((List.range (Nat.pow 2 m.numVariables)).filter fun k =>
    energyOfNumber m k - energy ≤ slack).map fun k => sampleOf m (.ofNumber m.numVariables k)

theorem nodup_samplesWithin (m : Model V α) (energy slack : α) :
    (samplesWithin m energy slack).Nodup := by
  rw [samplesWithin]
  refine (List.nodup_range.filter _).map_on fun k hk k' hk' heq => ?_
  have hlt : k < Nat.pow 2 m.numVariables := List.mem_range.1 (List.mem_filter.1 hk).1
  have hlt' : k' < Nat.pow 2 m.numVariables := List.mem_range.1 (List.mem_filter.1 hk').1
  exact PackedState.ofNumber_injOn _ hlt hlt' (sampleOf_injective
    (PackedState.canonical_ofNumber _ k) (PackedState.canonical_ofNumber _ k')
    (PackedState.len_ofNumber _ k) (PackedState.len_ofNumber _ k') heq)

theorem nodup_nearby_allEnergies [DecidableEq V] (m : Model V α) (energy : α) :
    (nearby m (allEnergies m) energy).Nodup := by
  rw [nearby_allEnergies]
  exact nodup_samplesWithin m energy _

variable [DecidableEq V]

theorem energyOfNumber_eq (m : Model V α) (k : Nat) : energyOfNumber m k =
    m.energyAt (.ofBits (m.labels.map fun v => k.testBit (m.position v))) := by
  rw [energyOfNumber, m.ofNumber_eq]

theorem mem_samplesWithin {energy slack : α} {x : Sample V} :
    x ∈ samplesWithin m energy slack ↔ ∃ b : V → Bool,
      sampleOf m (.ofBits (m.labels.map b)) = x ∧
        m.energyAt (.ofBits (m.labels.map b)) - energy ≤ slack := by
  simp only [samplesWithin, List.mem_map, List.mem_filter, List.mem_range, decide_eq_true_eq]
  constructor
  · rintro ⟨k, ⟨-, hle⟩, rfl⟩
    rw [energyOfNumber_eq] at hle
    exact ⟨fun v => k.testBit (m.position v), by rw [← m.ofNumber_eq], hle⟩
  · rintro ⟨b, rfl, hle⟩
    obtain ⟨k, hk, hb⟩ := m.exists_ofNumber_eq b
    rw [← hb] at hle ⊢
    exact ⟨k, ⟨hk, hle⟩, rfl⟩

theorem mem_nearby_allEnergies {energy : α} {x : Sample V} :
    x ∈ nearby m (allEnergies m) energy ↔ ∃ b : V → Bool,
      sampleOf m (.ofBits (m.labels.map b)) = x ∧
        m.energyAt (.ofBits (m.labels.map b)) - energy ≤ tolerance energy := by
  rw [nearby_allEnergies]
  exact mem_samplesWithin

structure Enumerated (m : Model V α) (g : GroundStates V α) : Prop where
  isLeast : IsLeast (Set.range fun b : V → Bool => m.energyAt (.ofBits (m.labels.map b))) g.energy
  nodup_samples : g.samples.Nodup
  mem_samples_iff : ∀ x, x ∈ g.samples ↔ ∃ b : V → Bool,
    sampleOf m (.ofBits (m.labels.map b)) = x ∧
      m.energyAt (.ofBits (m.labels.map b)) - g.energy ≤ tolerance g.energy

theorem exists_groundStates (h : m.WellFormed) (hn : m.numVariables ≤ maxEnumeratedVariables) :
    ∃ g, groundStates m = .ok g ∧ Enumerated m g := by
  obtain ⟨energy, henergy, hmem, hleast⟩ := exists_least? (l := allEnergies m)
    (by simp [allEnergies])
  refine ⟨⟨energy, nearby m (allEnergies m) energy⟩, ?_, ⟨?_, ?_⟩,
    nodup_nearby_allEnergies m energy, fun x => mem_nearby_allEnergies⟩
  · rw [groundStates, if_neg (not_lt.2 hn), energies?_eq h]
    simp only [henergy, Option.getD_some]
  · obtain ⟨k, -, rfl⟩ := List.mem_map.1 hmem
    exact ⟨fun v => k.testBit (m.position v), (energyOfNumber_eq m k).symm⟩
  · rintro _ ⟨b, rfl⟩
    obtain ⟨k, hk, hb⟩ := m.exists_ofNumber_eq b
    exact hleast _ (List.mem_map.2 ⟨k, List.mem_range.2 hk, congrArg m.energyAt hb⟩)

omit [DecidableEq V] in
theorem Enumerated.exists_energy_eq {g : GroundStates V α} (h : m.WellFormed)
    (hg : Enumerated m g) :
    ∃ s : Assignment V, s.InDomain m.vartype m.labels ∧ m.energy s = .ok g.energy := by
  obtain ⟨b, hb⟩ := hg.isLeast.1
  have hs := Assignment.inDomain_ofBits m.vartype b m.labels
  refine ⟨_, hs, ?_⟩
  rw [h.energy_eq_energyAt hs, Assignment.bit_ofBits]
  exact congrArg Except.ok hb

section Enumeration

omit [DecidableEq V] in
theorem exists_energyOfState?_eq {s : PackedState} (hlen : s.len = m.numVariables) :
    ∃ k < Nat.pow 2 m.numVariables,
      m.energyOfState? s = m.energyOfState? (.ofNumber m.numVariables k) := by
  have hbits : s.bits.length = m.numVariables := by rw [PackedState.length_bits, hlen]
  refine ⟨spelled s.bits, hbits ▸ spelled_lt s.bits, ?_⟩
  rw [PackedState.ofNumber_spelled hbits, Model.energyOfState?, Model.energyOfState?,
    PackedState.len_ofBits, PackedState.bits_ofBits, hlen, hbits]

omit [DecidableEq V] in
theorem tolerance_eq (energy : α) : tolerance energy = max 1 |energy| / 10 ^ 9 := by
  have hmagnitude : magnitude energy = |energy| := rfl
  rw [tolerance, hmagnitude, maxNum_eq_max, max_comm]
  push_cast
  ring

theorem samples_eq {g : GroundStates V α} (h : m.WellFormed) (hg : groundStates m = .ok g) :
    g.samples = nearby m (allEnergies m) g.energy := by
  rw [groundStates, energies?_eq h] at hg
  split at hg
  · cases hg
  · obtain rfl := Except.ok.inj hg
    rfl

theorem mem_samplesWithin_iff_energy (h : m.WellFormed) {energy slack : α} {x : Sample V} :
    x ∈ samplesWithin m energy slack ↔
      x.keys = m.labels ∧ x.assignment.InDomain m.vartype m.labels ∧
        ∃ e, m.energy x.assignment = .ok e ∧ e - energy ≤ slack := by
  simp only [mem_samplesWithin, sampleOf_ofBits_eq_iff]
  constructor
  · rintro ⟨b, ⟨hkeys, hvalues⟩, hle⟩
    have hdomain : x.assignment.InDomain m.vartype m.labels := fun v hv => ⟨b v, hvalues v hv⟩
    have hbits : m.labels.map (x.assignment.bit m.vartype) = m.labels.map b := by
      refine List.map_congr_left fun v hv => ?_
      have hvalue := (hdomain.eq_value v hv).symm.trans (hvalues v hv)
      exact m.vartype.value_injective (Option.some.inj hvalue)
    exact ⟨hkeys, hdomain, _, h.energy_eq_energyAt hdomain, hbits.symm ▸ hle⟩
  · rintro ⟨hkeys, hdomain, e, he, hle⟩
    obtain rfl := Except.ok.inj ((h.energy_eq_energyAt hdomain).symm.trans he)
    exact ⟨_, ⟨hkeys, hdomain.eq_value⟩, hle⟩

theorem Enumerated.mem_samples_iff_energy {g : GroundStates V α} (h : m.WellFormed)
    (hg : Enumerated m g) (x : Sample V) : x ∈ g.samples ↔
      x.keys = m.labels ∧ x.assignment.InDomain m.vartype m.labels ∧
        ∃ e, m.energy x.assignment = .ok e ∧ e - g.energy ≤ max 1 |g.energy| / 10 ^ 9 := by
  rw [hg.mem_samples_iff, ← mem_samplesWithin, mem_samplesWithin_iff_energy h, tolerance_eq]

/-- Up to twenty variables all states are tried: the energy is the least of all, and the samples
are the assignments within a billionth of it, relative to its magnitude where that exceeds one,
each once and in the order of the numbers that spell them. -/
theorem groundStates_enumerates (hm : m.Reachable) :
    (m.numVariables ≤ 20 → ∃ (g : GroundStates V α) (masks : List Nat), groundStates m = .ok g ∧
      IsLeast {e | ∃ s : PackedState, s.len = m.numVariables ∧ m.energyOfState? s = some e}
        g.energy ∧
      g.samples ≠ [] ∧ g.samples.Nodup ∧
      masks.Pairwise (· < ·) ∧ (∀ k ∈ masks, k < 2 ^ m.numVariables) ∧
      g.samples = masks.map (spelledSample m) ∧
      ∀ x : Sample V, x ∈ g.samples ↔
        x.keys = m.labels ∧ x.assignment.InDomain m.vartype m.labels ∧
          ∃ e, m.energy x.assignment = .ok e ∧ e - g.energy ≤ max 1 |g.energy| / 10 ^ 9) ∧
    (20 < m.numVariables →
      groundStates m = .error (.invalid (.search (.states m.numVariables)))) := by
  have h := hm.wellFormed
  refine ⟨fun hn => ?_, fun hn => if_pos hn⟩
  obtain ⟨g, hground, hg⟩ := exists_groundStates h hn
  have hsamples := samples_eq h hground
  rw [nearby_allEnergies] at hsamples
  simp only [sampleOf_ofNumber] at hsamples
  have henergy : ∀ k, m.energyOfState? (.ofNumber m.numVariables k) = some (energyOfNumber m k) :=
    fun k => h.energyOfState?_eq (by simp)
  refine ⟨g, _, hground, ⟨?_, ?_⟩, ?_, hg.nodup_samples, List.pairwise_lt_range.filter _,
    fun k hk => List.mem_range.1 (List.mem_filter.1 hk).1, hsamples,
    hg.mem_samples_iff_energy h⟩
  · obtain ⟨b, hb⟩ := hg.isLeast.1
    refine ⟨.ofBits (m.labels.map b), by simp, ?_⟩
    rw [h.energyOfState?_eq (by simp)]
    exact congrArg some hb
  · rintro e ⟨s, hlen, he⟩
    obtain ⟨k, -, hk⟩ := exists_energyOfState?_eq hlen
    rw [hk, henergy, energyOfNumber_eq] at he
    exact hg.isLeast.2 ⟨_, Option.some.inj he⟩
  · -- the least energy is within the tolerance of itself
    obtain ⟨b, hb⟩ := hg.isLeast.1
    refine List.ne_nil_of_mem ((hg.mem_samples_iff _).2 ⟨b, rfl, ?_⟩)
    have hb' : m.energyAt (.ofBits (m.labels.map b)) = g.energy := hb
    rw [hb', sub_self, tolerance_eq]
    positivity

theorem groundStates_enumerates_two_spins :
    let m : Model Nat ℝ := .blank .spin [0, 1]
    m.Reachable ∧ m.numVariables ≤ 20 ∧ ∃ g : GroundStates Nat ℝ, groundStates m = .ok g ∧
      g.energy = 0 ∧ ∀ x : Sample Nat, x ∈ g.samples ↔
        x.keys = [0, 1] ∧ x.assignment.InDomain .spin [0, 1] := by
  intro m
  have hm : m.Reachable := (Model.Reachable.empty .spin).addVariables _
  have hlabels : m.labels = [0, 1] := Model.labels_blank .spin (by decide)
  have hvartype : m.vartype = .spin := Model.vartype_blank .spin [0, 1]
  have hn : m.numVariables ≤ 20 := by
    rw [← Model.length_labels, hlabels]
    decide
  obtain ⟨g, -, hground, hleast, -, -, -, -, -, hmem⟩ := (groundStates_enumerates hm).1 hn
  have hzero : g.energy = 0 := by
    obtain ⟨s, hlen, hs⟩ := hleast.1
    obtain ⟨k, -, hk⟩ := exists_energyOfState?_eq hlen
    rw [hk, hm.wellFormed.energyOfState?_eq (by simp), m.ofNumber_eq, Model.energyAt_ofBits,
      Model.evaluate_blank] at hs
    exact (Option.some.inj hs).symm
  refine ⟨hm, hn, g, hground, hzero, fun x => ?_⟩
  rw [hmem, hlabels, hvartype]
  refine and_congr_right fun _ => and_iff_left_of_imp fun hdomain => ?_
  have henergy := hm.wellFormed.energy_eq (s := x.assignment) (hvartype ▸ hlabels ▸ hdomain)
  rw [Model.evaluate_blank] at henergy
  refine ⟨0, henergy, ?_⟩
  rw [hzero]
  norm_num

end Enumeration

end Search

end BinaryQuadratic

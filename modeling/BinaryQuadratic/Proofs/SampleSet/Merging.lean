import Mathlib.Data.Fintype.BigOperators
import BinaryQuadratic.Proofs.Coefficient.TotalOrder
import BinaryQuadratic.Proofs.Model.WellFormed
import BinaryQuadratic.Proofs.OrderedMap
import BinaryQuadratic.Proofs.PackedState
import BinaryQuadratic.SampleSet.Basic

/-! Merging reads. Counting them by state loses none of them, and different states, since their
padding is clear, become different samples. A sample has the energy of the state it is made from,
although it is evaluated by its labels. -/

namespace BinaryQuadratic

open Coefficient

variable {V α : Type} {m : Model V α} {s t : PackedState}

namespace SampleSet

section Samples

theorem keys_sampleOf (hlen : s.len = m.numVariables) : (sampleOf m s).keys = m.labels :=
  OrderedMap.keys_zipWith _ _ (by rw [PackedState.length_values, hlen, Model.numVariables])

theorem values_sampleOf (hlen : s.len = m.numVariables) :
    (sampleOf m s).values = s.values m.vartype := by
  have hsize : m.linear.values.length = (s.values m.vartype).length := by
    rw [OrderedMap.length_values, PackedState.length_values, hlen, Model.numVariables]
  have hsnd := List.map_snd_zip hsize.ge
  rw [List.zip, List.map_zipWith] at hsnd
  rw [sampleOf, OrderedMap.values_zipWith]
  exact hsnd

theorem mem_values_sampleOf (hlen : s.len = m.numVariables) {x : Int}
    (hx : x ∈ (sampleOf m s).values) : x ∈ m.vartype.values := by
  rw [values_sampleOf hlen, PackedState.values] at hx
  obtain ⟨b, -, rfl⟩ := List.mem_map.1 hx
  cases b <;> simp [Vartype.values]

theorem sampleOf_injective (hs : s.Canonical) (ht : t.Canonical) (hslen : s.len = m.numVariables)
    (htlen : t.len = m.numVariables) (h : sampleOf m s = sampleOf m t) : s = t := by
  have hvalues : s.values m.vartype = t.values m.vartype := by
    rw [← values_sampleOf hslen, ← values_sampleOf htlen, h]
  have hinj : Function.Injective m.vartype.value := fun _ _ => m.vartype.value_injective
  exact hs.eq_of_bits_eq ht (List.map_injective_iff.2 hinj hvalues)

theorem energy_sampleOf [Coefficient α] [DecidableEq V] (hs : s.Canonical)
    (hlen : s.len = m.numVariables) {e : α} (he : m.energyOfState? s = some e) :
    m.energy (sampleOf m s).assignment = .ok e := by
  have hfind : m.labels.map (sampleOf m s).assignment = (s.values m.vartype).map some := by
    rw [← keys_sampleOf hlen, ← values_sampleOf hlen]
    exact OrderedMap.map_find?_keys _
  have hmissing : (m.labels.filter fun v => ((sampleOf m s).assignment v).isNone) = [] := by
    rw [List.filter_eq_nil_iff]
    intro v hv hnone
    have hmem : (sampleOf m s).assignment v ∈ (s.values m.vartype).map some :=
      hfind ▸ List.mem_map_of_mem hv
    obtain ⟨x, -, hx⟩ := List.mem_map.1 hmem
    simp [← hx] at hnone
  have hvalues : m.labels.filterMap (sampleOf m s).assignment = s.values m.vartype := by
    have hid := congrArg (List.filterMap id) hfind
    simpa [List.filterMap_map] using hid
  simp only [Model.energy, hmissing, hvalues, hs.ofValues?_values, he]

end Samples

section Merging

variable [Coefficient α]

theorem len_eq_of_energyOfState? {e : α} (h : m.energyOfState? s = some e) :
    s.len = m.numVariables := by
  rw [Model.energyOfState?] at h
  split at h
  · assumption
  · cases h

structure Outcome (m : Model V α) (s : PackedState) (e : α) (n : UInt64) : Prop where
  canonical : s.Canonical
  energy_eq : m.energyOfState? s = some e
  occurrences_pos : 0 < n

theorem Outcome.len_eq {e : α} {n : UInt64} (h : Outcome m s e n) : s.len = m.numVariables :=
  len_eq_of_energyOfState? h.energy_eq

structure Merged (m : Model V α) (n : Nat) (seen : OrderedMap PackedState (α × UInt64)) :
    Prop where
  outcome : ∀ s p, seen.find? s = some p → Outcome m s p.1 p.2
  total : (seen.values.map fun p => p.2.toNat).sum = n

variable {n : Nat} {seen : OrderedMap PackedState (α × UInt64)}

theorem merged_empty (m : Model V α) : Merged m 0 ∅ := ⟨by simp, rfl⟩

theorem Merged.toNat_le (h : Merged m n seen) {p : α × UInt64} (hp : seen.find? s = some p) :
    p.2.toNat ≤ n := by
  rw [← h.total]
  refine List.le_sum_of_mem (List.mem_map_of_mem (f := fun p : α × UInt64 => p.2.toNat) ?_)
  exact List.mem_map_of_mem (OrderedMap.find?_eq_some_iff.1 hp)

theorem Merged.tally (h : Merged m n seen) {r : Solution α} {e : α}
    (hr : Outcome m r.state e r.occurrences) (hfit : n + r.occurrences.toNat < 2 ^ 64) :
    Merged m (n + r.occurrences.toNat) (tally seen r e) := by
  -- the count of an entry is at most that of all reads, so that it does not wrap around
  have hcount : ((seen.find? r.state).getD (e, 0)).2.toNat ≤ n := by
    cases hp : seen.find? r.state with
    | none => simp
    | some p => exact h.toNat_le hp
  have hadd : (((seen.find? r.state).getD (e, 0)).2 + r.occurrences).toNat =
      ((seen.find? r.state).getD (e, 0)).2.toNat + r.occurrences.toNat := by
    rw [UInt64.toNat_add]
    exact Nat.mod_eq_of_lt (by omega)
  refine ⟨fun s p hs => ?_, ?_⟩
  · rw [SampleSet.tally, OrderedMap.find?_adjust] at hs
    split at hs
    · next heq =>
      subst heq
      obtain rfl := Option.some.inj hs
      have hpos : 0 < ((seen.find? r.state).getD (e, 0)).2 + r.occurrences := by
        have := UInt64.lt_iff_toNat_lt.1 hr.occurrences_pos
        rw [UInt64.lt_iff_toNat_lt, hadd]
        omega
      refine ⟨hr.canonical, ?_, hpos⟩
      cases hp : seen.find? r.state with
      | none => exact hr.energy_eq
      | some p => exact (h.outcome _ p hp).energy_eq
    · exact h.outcome s p hs
  · rw [← h.total]
    exact OrderedMap.sum_values_adjust (fun p : α × UInt64 => p.2.toNat) seen rfl hadd

def Evaluated (m : Model V α) (solutions : List (Solution α)) : Prop :=
  ∀ r ∈ solutions, ∃ e, r.energyIn? m = some e ∧ Outcome m r.state e r.occurrences

theorem Merged.exists_tallyAll? (h : Merged m n seen) {solutions : List (Solution α)}
    (hs : Evaluated m solutions)
    (hfit : n + (solutions.map fun r => r.occurrences.toNat).sum < 2 ^ 64) :
    ∃ seen', tallyAll? m solutions seen = some seen' ∧
      Merged m (n + (solutions.map fun r => r.occurrences.toNat).sum) seen' := by
  induction solutions generalizing n seen with
  | nil => exact ⟨seen, rfl, h⟩
  | cons r rest ih =>
    obtain ⟨e, he, hr⟩ := hs r (by simp)
    rw [List.map_cons, List.sum_cons, ← Nat.add_assoc] at hfit ⊢
    rw [tallyAll?, he]
    exact ih (h.tally hr (by omega)) (fun r hr => hs r (List.mem_cons_of_mem _ hr)) hfit

theorem Merged.outcome_of_mem (h : Merged m n seen) {e : PackedState × α × UInt64}
    (he : e ∈ seen.entries) : Outcome m e.1 e.2.1 e.2.2 :=
  h.outcome e.1 e.2 (OrderedMap.find?_eq_some_iff.2 he)

theorem Merged.size_le_reads (h : Merged m n seen) : seen.size ≤ n := by
  have hone : ∀ c ∈ seen.values.map fun p => p.2.toNat, 1 ≤ c := by
    intro c hc
    obtain ⟨p, hp, rfl⟩ := List.mem_map.1 hc
    obtain ⟨e, he, rfl⟩ := List.mem_map.1 hp
    exact UInt64.lt_iff_toNat_lt.1 (h.outcome_of_mem he).occurrences_pos
  have hlen := List.length_le_sum_of_one_le _ hone
  rwa [h.total, List.length_map, OrderedMap.length_values] at hlen

theorem Merged.outcome_of_mem_keys (h : Merged m n seen) (hs : s ∈ seen.keys) :
    s.Canonical ∧ s.len = m.numVariables := by
  obtain ⟨e, he, rfl⟩ := List.mem_map.1 hs
  exact ⟨(h.outcome_of_mem he).canonical, (h.outcome_of_mem he).len_eq⟩

theorem Merged.size_le_states (h : Merged m n seen) : seen.size ≤ 2 ^ m.numVariables := by
  let bitsOf (s : PackedState) : Fin m.numVariables → Bool := fun i => s.bit i
  have hinj : ∀ s ∈ seen.keys, ∀ t ∈ seen.keys, bitsOf s = bitsOf t → s = t := by
    intro s hs t ht hst
    obtain ⟨hs, hslen⟩ := h.outcome_of_mem_keys hs
    obtain ⟨ht, htlen⟩ := h.outcome_of_mem_keys ht
    refine hs.eq_of_bits_eq ht ?_
    rw [PackedState.bits, PackedState.bits, hslen, htlen]
    exact List.map_congr_left fun i hi => congrFun hst ⟨i, List.mem_range.1 hi⟩
  have hcard := (List.Nodup.map_on hinj seen.nodup).length_le_card
  simpa using hcard

theorem Merged.one_le_size (h : Merged m n seen) (hn : 1 ≤ n) : 1 ≤ seen.size := by
  by_contra hempty
  have hnil : seen.values = [] := by
    rw [← List.length_eq_zero_iff, OrderedMap.length_values]
    omega
  have htotal := h.total
  rw [hnil, List.map_nil, List.sum_nil] at htotal
  omega

theorem Merged.nodup_samples (h : Merged m n seen) : (seen.keys.map (sampleOf m)).Nodup := by
  refine List.Nodup.map_on (fun s hs t ht hst => ?_) seen.nodup
  obtain ⟨hs, hslen⟩ := h.outcome_of_mem_keys hs
  obtain ⟨ht, htlen⟩ := h.outcome_of_mem_keys ht
  exact sampleOf_injective hs ht hslen htlen hst

end Merging

section Description

variable [DecidableEq V] [Coefficient α]

/-- What the sample set of `n` reads of a model says. -/
structure Describes (set : SampleSet V α) (m : Model V α) (n : Nat) : Prop where
  vartype_eq : set.vartype = m.vartype
  sum_occurrences : (set.records.map fun r => r.occurrences.toNat).sum = n
  one_le_occurrences : ∀ r ∈ set.records, 1 ≤ r.occurrences.toNat
  nodup_samples : (set.records.map Record.sample).Nodup
  one_le_len : 1 ≤ set.len
  len_le : set.len ≤ min n (2 ^ m.numVariables)
  keys_eq : ∀ r ∈ set.records, r.sample.keys = m.labels
  mem_values : ∀ r ∈ set.records, ∀ x ∈ r.sample.values, x ∈ m.vartype.values
  energy_eq : ∀ r ∈ set.records, m.energy r.sample.assignment = .ok r.energy
  sorted : set.records.Pairwise fun a b => totalLe a.energy b.energy = true

variable {n : Nat} {seen : OrderedMap PackedState (α × UInt64)}

theorem Merged.describes [TotallyOrdered α] (h : Merged m n seen) (hn : 1 ≤ n) :
    Describes (ofRecords m.vartype
      (seen.entries.map fun (s, e, n) => ⟨sampleOf m s, e, n⟩)) m n := by
  set rs : List (Record V α) := seen.entries.map fun (s, e, n) => ⟨sampleOf m s, e, n⟩ with hrs
  have hperm : (sortByEnergy rs).Perm rs := List.mergeSort_perm rs _
  have hlen : (ofRecords m.vartype rs).len = seen.size :=
    hperm.length_eq.trans (by rw [hrs, List.length_map, OrderedMap.size])
  have hrecord : ∀ r ∈ sortByEnergy rs, ∃ s, r.sample = sampleOf m s ∧
      Outcome m s r.energy r.occurrences := by
    intro r hr
    obtain ⟨e, he, rfl⟩ := List.mem_map.1 (hperm.mem_iff.1 hr)
    exact ⟨e.1, rfl, h.outcome_of_mem he⟩
  have hsamples : rs.map Record.sample = seen.keys.map (sampleOf m) := by
    rw [hrs, List.map_map, OrderedMap.keys, List.map_map]
    rfl
  have hcounts : (rs.map fun r => r.occurrences.toNat) = seen.values.map fun p => p.2.toNat := by
    rw [hrs, List.map_map, OrderedMap.values, List.map_map]
    rfl
  refine
    { vartype_eq := rfl
      sum_occurrences := ?_
      one_le_occurrences := fun r hr => ?_
      nodup_samples := (hperm.map _).nodup_iff.2 (hsamples ▸ h.nodup_samples)
      one_le_len := hlen ▸ h.one_le_size hn
      len_le := hlen ▸ le_min h.size_le_reads h.size_le_states
      keys_eq := fun r hr => ?_
      mem_values := fun r hr x hx => ?_
      energy_eq := fun r hr => ?_
      sorted := ?_ }
  · exact (hperm.map _).sum_eq.trans (hcounts ▸ h.total)
  · obtain ⟨s, -, ho⟩ := hrecord r hr
    exact UInt64.lt_iff_toNat_lt.1 ho.occurrences_pos
  · obtain ⟨s, hs, ho⟩ := hrecord r hr
    exact hs ▸ keys_sampleOf ho.len_eq
  · obtain ⟨s, hs, ho⟩ := hrecord r hr
    exact mem_values_sampleOf ho.len_eq (hs ▸ hx)
  · obtain ⟨s, hs, ho⟩ := hrecord r hr
    exact hs ▸ energy_sampleOf ho.canonical ho.len_eq ho.energy_eq
  · exact List.pairwise_mergeSort
      (fun a b c => TotallyOrdered.totalLe_trans a.energy b.energy c.energy)
      (fun a b => TotallyOrdered.totalLe_total a.energy b.energy) rs

theorem describes_ofSolutions? [TotallyOrdered α] {solutions : List (Solution α)}
    (hs : Evaluated m solutions) (hsum : (solutions.map fun r => r.occurrences.toNat).sum = n)
    (hn : 1 ≤ n) (hfit : n < 2 ^ 64) :
    ∃ set, ofSolutions? m solutions = some set ∧ set.Describes m n := by
  have hfit' : 0 + (solutions.map fun r => r.occurrences.toNat).sum < 2 ^ 64 := by omega
  obtain ⟨seen, hseen, hmerged⟩ := (merged_empty m).exists_tallyAll? hs hfit'
  rw [Nat.zero_add, hsum] at hmerged
  exact ⟨_, congrArg (Option.map _) hseen, hmerged.describes hn⟩

end Description

end SampleSet

end BinaryQuadratic

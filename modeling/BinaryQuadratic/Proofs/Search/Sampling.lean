import BinaryQuadratic.Proofs.Annealing.Outcomes
import BinaryQuadratic.Proofs.Problem.Tour.Decoding
import BinaryQuadratic.Proofs.SampleSet.Ascending
import BinaryQuadratic.Proofs.Search.GroundStates

/-! A search through all states against annealing, with the rounding of doubles. Both evaluate the
same bits in the same way and label them alike, so that no read is better than the search, and one
that is as good has been listed. -/

namespace BinaryQuadratic

open Coefficient

namespace SampleSet

variable {V α : Type} [Coefficient α] [DecidableEq V] {m : Model V α} {n : Nat}

theorem Describes.exists_bits {set : SampleSet V α} (h : set.Describes m n) (hm : m.WellFormed)
    {r : Record V α} (hr : r ∈ set.records) : ∃ bits, sampleOf m (.ofBits bits) = r.sample ∧
      m.energyOfState? (.ofBits bits) = some r.energy := by
  let b (v : V) : Bool := ((r.sample.assignment v).bind m.vartype.bit?).getD false
  have hassigned : ∀ v ∈ m.labels, r.sample.assignment v = some (m.vartype.value (b v)) := by
    intro v hv
    rw [← h.keys_eq r hr] at hv
    obtain ⟨⟨v, x⟩, hentry, rfl⟩ := List.mem_map.1 hv
    have hfind : r.sample.assignment v = some x := OrderedMap.find?_eq_some_iff.2 hentry
    obtain ⟨c, rfl⟩ := Vartype.mem_values_iff.1
      (h.mem_values r hr x (List.mem_map_of_mem (f := Prod.snd) hentry))
    simp [b, hfind]
  have hsample := sampleOf_ofBits_eq_iff.2 ⟨h.keys_eq r hr, hassigned⟩
  have hlen : (PackedState.ofBits (m.labels.map b)).len = m.numVariables := by simp
  obtain ⟨e, he⟩ := hm.exists_energyOfState? hlen
  have henergy := energy_sampleOf (PackedState.canonical_ofBits _) hlen he
  rw [hsample, h.energy_eq r hr] at henergy
  exact ⟨_, hsample, he.trans (congrArg some (Except.ok.inj henergy).symm)⟩

end SampleSet

namespace Search

open SampleSet

section Doubles

theorem tolerance_nonneg (e : Float) : 0 ≤ tolerance e := by
  have hone : (0 : Float) < ofNat 1 := by decide
  refine Binary64.mul_nonneg (by decide) ?_
  unfold maxNum
  split
  · exact hone
  next hlt =>
  split
  · next hnumber => exact
      Comparable.lt_of_lt_of_le hone (Comparable.le_of_not_lt hnumber (by decide) hlt)
  · exact hone

theorem sub_le_tolerance {a b : Float} (ha : a.isFinite = true) (h : (a == b) = true) :
    a - b ≤ tolerance b :=
  Comparable.le_trans _ _ _ (Binary64.sub_nonpos ha h) (tolerance_nonneg b)

end Doubles

variable {V : Type}

section Energies

variable {α : Type} [Coefficient α] {m : Model V α}

theorem length_eq_of_energyOfState? {bits : List Bool} {e : α}
    (h : m.energyOfState? (.ofBits bits) = some e) : bits.length = m.numVariables :=
  (PackedState.len_ofBits bits).symm.trans (len_eq_of_energyOfState? h)

theorem exists_energies? (h : m.WellFormed) : ∃ energies, m.energies? = some energies := by
  refine ⟨(List.range (Nat.pow 2 m.numVariables)).map fun k =>
    (m.energyOfState? (.ofNumber m.numVariables k)).getD 0, Tour.mapM_eq_some_iff.2 ?_⟩
  rw [List.map_map]
  refine List.map_congr_left fun k _ => ?_
  obtain ⟨e, he⟩ := h.exists_energyOfState? (PackedState.len_ofNumber m.numVariables k)
  rw [Function.comp_apply, he, Option.getD_some]

theorem getElem?_energies? {energies : List α} (h : m.energies? = some energies) {k : Nat}
    {e : α} :
    energies[k]? = some e ↔ k < Nat.pow 2 m.numVariables ∧
      m.energyOfState? (.ofNumber m.numVariables k) = some e := by
  have hmap := congrArg (·[k]?) (Tour.mapM_eq_some_iff.1 h)
  simp only [List.getElem?_map] at hmap
  by_cases hk : k < Nat.pow 2 m.numVariables
  · rw [List.getElem?_range hk, Option.map_some] at hmap
    cases he : energies[k]? <;> simp_all
  · rw [List.getElem?_eq_none (by simpa using hk)] at hmap
    cases he : energies[k]? <;> simp_all

end Energies

variable {m : Model V Float}

def FiniteEnergies (m : Model V Float) : Prop :=
  ∀ bits e, m.energyOfState? (.ofBits bits) = some e → e.isFinite = true

structure Listed (m : Model V Float) (g : GroundStates V Float) : Prop where
  energy_le : ∀ bits e, m.energyOfState? (.ofBits bits) = some e → g.energy ≤ e
  mem_samples : ∀ bits e, m.energyOfState? (.ofBits bits) = some e → (e == g.energy) = true →
    sampleOf m (.ofBits bits) ∈ g.samples

theorem exists_listed [DecidableEq V] (hm : m.WellFormed)
    (hn : m.numVariables ≤ maxEnumeratedVariables) (hfinite : FiniteEnergies m) : ∃ g, groundStates m = .ok g ∧ Listed m g := by
  obtain ⟨energies, henergies⟩ := exists_energies? hm
  have hnumber : ∀ e ∈ energies, IsNumber e := by
    intro e he
    obtain ⟨k, hk⟩ := List.mem_iff_getElem?.1 he
    exact Binary64.isNumber_of_isFinite (hfinite _ e ((getElem?_energies? henergies).1 hk).2)
  -- a state is met at the number that its bits spell
  have hmet : ∀ bits e, m.energyOfState? (.ofBits bits) = some e →
      ∃ k, energies[k]? = some e ∧ PackedState.ofNumber m.numVariables k = .ofBits bits := by
    intro bits e he
    have hlen := length_eq_of_energyOfState? he
    have hspelled := PackedState.ofNumber_spelled hlen
    refine ⟨spelled bits, (getElem?_energies? henergies).2 ⟨hlen ▸ spelled_lt bits, ?_⟩, hspelled⟩
    rw [hspelled, he]
  have hne : energies ≠ [] := by
    obtain ⟨e, he⟩ := hm.exists_energyOfState? (PackedState.len_ofNumber m.numVariables 0)
    have hfirst := (getElem?_energies? henergies).2 ⟨Nat.two_pow_pos _, he⟩
    exact List.ne_nil_of_mem (List.mem_of_getElem? hfirst)
  obtain ⟨energy, hleast, -, hle⟩ := exists_least?_of_isNumber hne hnumber
  refine ⟨⟨energy, nearby m energies energy⟩, ?_, fun bits e he => ?_, fun bits e he heq => ?_⟩
  · rw [groundStates, if_neg (not_lt.2 hn), henergies]
    simp only [hleast, Option.getD_some]
  · obtain ⟨k, hk, -⟩ := hmet bits e he
    exact hle e (List.mem_of_getElem? hk)
  · obtain ⟨k, hk, hstate⟩ := hmet bits e he
    rw [← hstate]
    refine List.mem_map.2 ⟨(e, k), List.mem_filter.2 ⟨?_, ?_⟩, (sampleOf_ofNumber m k).symm⟩
    · exact List.mem_zipIdx_iff_getElem?.2 hk
    · exact decide_eq_true (sub_le_tolerance (hfinite bits e he) heq)

end Search

namespace Annealing

open Randomness SampleSet Search

variable {V μ γ : Type} [DecidableEq V] {m : Model V Float} {g : GroundStates V Float}
  {set : SampleSet V Float}

structure Within (set : SampleSet V Float) (g : GroundStates V Float) : Prop where
  energy_le : ∀ r ∈ set.records, g.energy ≤ r.energy
  mem_samples : ∀ r ∈ set.records, (r.energy == g.energy) = true → r.sample ∈ g.samples
  lowest_mem : (∃ r ∈ set.records, (r.energy == g.energy) = true) →
    ∀ r ∈ set.lowest, r.sample ∈ g.samples

theorem within_of_listed (hm : m.WellFormed) (hfinite : FiniteEnergies m) (hg : Listed m g)
    {n : Nat} (hset : set.Describes m n) : Within set g := by
  have henergy : ∀ r ∈ set.records, g.energy ≤ r.energy := by
    intro r hr
    obtain ⟨bits, -, he⟩ := hset.exists_bits hm hr
    exact hg.energy_le bits _ he
  have hsample : ∀ r ∈ set.records, (r.energy == g.energy) = true → r.sample ∈ g.samples := by
    intro r hr heq
    obtain ⟨bits, hbits, he⟩ := hset.exists_bits hm hr
    rw [← hbits]
    exact hg.mem_samples bits _ he heq
  have hascending : set.Ascending := ascending_of_totalLe (fun r hr => by
    obtain ⟨bits, -, he⟩ := hset.exists_bits hm hr
    exact Binary64.isNumber_of_isFinite (hfinite bits _ he)) hset.sorted
  refine ⟨henergy, hsample, ?_⟩
  rintro ⟨best, hbest, hreached⟩ r hr
  rw [hascending.lowest_eq, List.mem_filter, Option.any_eq_true] at hr
  obtain ⟨hmem, first, hfirst, hlowest⟩ := hr
  -- the first record is not above the one that reaches the lowest energy
  have hle : r.energy ≤ g.energy :=
    Comparable.le_trans _ _ _ ((Comparable.beq_iff _ _).1 hlowest).1
      (Comparable.le_trans _ _ _ (hascending.first?_le hfirst best hbest)
        ((Comparable.beq_iff _ _).1 hreached).1)
  exact hsample r hmem ((Comparable.beq_iff _ _).2 ⟨hle, henergy r hmem⟩)

theorem describes_of_sampleWith [Seedable μ] [Seedable γ] (hm : m.WellFormed) {a : Annealer Float}
    {numReads fresh : UInt64} (h : a.sampleWith μ γ m numReads fresh = .ok set) :
    set.Describes m numReads.toNat := by
  obtain ⟨hreads, -, -, hset⟩ := sampleWith_eq_ok_iff.1 h
  have hpos : 1 ≤ numReads.toNat := UInt64.lt_iff_toNat_lt.1 (UInt64.pos_iff_ne_zero.2 hreads)
  split at hset
  · next hempty =>
    obtain ⟨set', hset', hdescribes⟩ := exists_collectEmpty? hempty hpos
    rwa [← Option.some.inj (hset'.symm.trans hset)]
  · obtain ⟨set', hset', hdescribes⟩ :=
      exists_collect? (μ := μ) (γ := γ) hm a hpos (a.seed.getD fresh)
    rwa [← Option.some.inj (hset'.symm.trans hset)]

/-- A search through all states of a model with finite energies finds a lowest energy. Each call of
the annealer that is neither refused nor cancelled returns samples, and these are not better than
the search: a read that reaches the lowest energy is one of the ground states. -/
theorem sampleWith_within_groundStates [Seedable μ] [Seedable γ] (hm : m.Reachable)
    (hn : m.numVariables ≤ maxEnumeratedVariables) (hfinite : FiniteEnergies m) :
    ∃ g, groundStates m = .ok g ∧ ∀ (a : Annealer Float) (numReads fresh : UInt64),
      (a.validate = .ok () → a.isCancelled = false → numReads ≠ 0 →
        ∃ set, a.sampleWith μ γ m numReads fresh = .ok set) ∧
      ∀ set, a.sampleWith μ γ m numReads fresh = .ok set → Within set g := by
  obtain ⟨g, hsearch, hg⟩ := exists_listed hm.wellFormed hn hfinite
  refine ⟨g, hsearch, fun a numReads fresh => ⟨fun hvalid hcancel hreads => ?_, fun set hset => ?_⟩⟩
  · obtain ⟨set, hset⟩ := exists_set (μ := μ) (γ := γ) hm.wellFormed a numReads (a.seed.getD fresh)
    exact ⟨set, sampleWith_eq_ok_iff.2 ⟨hreads, hvalid, hcancel, hset⟩⟩
  · exact within_of_listed hm.wellFormed hfinite hg (describes_of_sampleWith hm.wellFormed hset)

theorem sampleWith_within_groundStates_two_spins :
    let m : Model Nat Float :=
      ((Model.empty .spin).addVariable 5 (1 / 10)).couple 5 2 (3 / 10)
    let a : Annealer Float := { numSweeps := 4, sweepsPerBeta := 2 }
    m.Reachable ∧ m.numVariables ≤ maxEnumeratedVariables ∧ FiniteEnergies m ∧
      ∃ g set, groundStates m = .ok g ∧
        a.sampleWith ChaCha20 Pcg64 m 7 3 = .ok set ∧ Within set g := by
  intro m a
  have hm : m.Reachable :=
    .addInteraction (.addVariable 5 (1 / 10) (.empty .spin)) (u := 5) (v := 2) (b := 3 / 10) rfl
  have hfinite : FiniteEnergies m := by
    have hall : ∀ x y, (m.energyOfState? (.ofBits [x, y])).all Float.isFinite = true := by
      decide +kernel
    intro bits e he
    obtain ⟨x, y, rfl⟩ := List.length_eq_two.1 (length_eq_of_energyOfState? he)
    simpa [he] using hall x y
  have hvalid : a.validate = .ok () := by
    simp [a, Annealer.validate, Betas.isSchedule, Betas.validate]
  obtain ⟨g, hg, hall⟩ := sampleWith_within_groundStates (μ := ChaCha20) (γ := Pcg64) hm
    (by decide) hfinite
  obtain ⟨hsome, hwithin⟩ := hall a 7 3
  obtain ⟨set, hset⟩ := hsome hvalid rfl (by decide)
  exact ⟨hm, by decide, hfinite, g, set, hg, hset, hwithin set hset⟩

end Annealing

end BinaryQuadratic

import BinaryQuadratic.Proofs.Annealing.Progress
import BinaryQuadratic.Proofs.SampleSet.Merging

/-! What sampling returns. Rounding may spoil the energies that a run compares, but not those that
it reports: each read is evaluated anew in the state that it ended in. -/

namespace BinaryQuadratic.Annealing

open Coefficient Randomness SampleSet

variable {V α μ γ : Type} [Coefficient α] {m : Model V α}

theorem exists_read? [Generator γ] (hm : m.WellFormed) (a : Annealer α) (g : γ) :
    ∃ s e, (a.run m).read? g = some ⟨s, some e, 1⟩ ∧ Outcome m s e 1 := by
  have hsize : (a.run m).couplings.size = m.numVariables := Couplings.size_ofModel m
  obtain ⟨s, g', hanneal, hs, hlen⟩ := exists_anneal? hm
    (PackedState.canonical_random m.numVariables g) rfl (a.run m).schedule a.sweepsPerBeta
    (PackedState.random m.numVariables g).2
  obtain ⟨e, he⟩ := hm.exists_energyOfState? hlen
  have hanneal' : anneal? (a.run m).couplings (a.run m).schedule (a.run m).sweepsPerBeta
      (PackedState.random m.numVariables g).1 (PackedState.random m.numVariables g).2 = _ := hanneal
  refine ⟨s, e, ?_, hs, he, by decide⟩
  simp only [Run.read?, hsize, hanneal', Solution.evaluated?, Solution.energyIn?, Solution.ofState]
  exact congrArg (Option.map _) he

theorem exists_readAll? [Seedable γ] (hm : m.WellFormed) (a : Annealer α) (seeds : List UInt64) :
    ∃ solutions, Annealer.readAll? γ (a.run m) seeds = some solutions ∧ Evaluated m solutions ∧
      (solutions.map fun r => r.occurrences.toNat).sum = seeds.length := by
  induction seeds with
  | nil => exact ⟨[], rfl, by simp [Evaluated], rfl⟩
  | cons seed rest ih =>
    obtain ⟨solutions, hrest, hall, hsum⟩ := ih
    obtain ⟨s, e, hread, ho⟩ := exists_read? hm a (Seedable.ofSeed seed : γ)
    refine ⟨⟨s, some e, 1⟩ :: solutions, ?_, ?_, ?_⟩
    · rw [Annealer.readAll?, hread, hrest]
      rfl
    · rintro r (_ | ⟨_, hr⟩)
      · exact ⟨e, rfl, ho⟩
      · exact hall r hr
    · rw [List.map_cons, List.sum_cons, hsum, List.length_cons, Nat.add_comm]
      rfl

section Empty

variable (hempty : m.isEmpty = true)

include hempty

omit [Coefficient α] in
theorem biases_eq_nil : m.biases = [] := by
  rw [← List.length_eq_zero_iff, m.length_biases, Model.numVariables_eq_zero hempty]

theorem energyOfState?_zeros : m.energyOfState? (.zeros 0) = some m.offset := by
  have hlen : (PackedState.zeros 0).len = m.numVariables :=
    (Model.numVariables_eq_zero hempty).symm
  rw [Model.energyOfState?, if_pos hlen, Model.energyOfValues?, biases_eq_nil hempty]
  rfl

end Empty

variable [DecidableEq V] [TotallyOrdered α]

theorem exists_collect? [Seedable μ] [Seedable γ] (hm : m.WellFormed) (a : Annealer α)
    {numReads : UInt64} (hreads : 1 ≤ numReads.toNat) (seed : UInt64) :
    ∃ set, Annealer.collect? μ γ a m numReads.toNat seed = some set ∧
      set.Describes m numReads.toNat := by
  obtain ⟨solutions, hsolutions, hall, hsum⟩ :=
    exists_readAll? (γ := γ) hm a (Annealer.readSeeds μ seed numReads.toNat)
  rw [Annealer.readSeeds, length_draws] at hsum
  obtain ⟨set, hset, hdescribes⟩ := describes_ofSolutions? hall hsum hreads numReads.toNat_lt
  exact ⟨set, by rw [Annealer.collect?, hsolutions, Option.bind_some, hset], hdescribes⟩

theorem exists_collectEmpty? (hempty : m.isEmpty = true) {numReads : UInt64}
    (hreads : 1 ≤ numReads.toNat) :
    ∃ set, Annealer.collectEmpty? m numReads = some set ∧ set.Describes m numReads.toNat := by
  have ho : Outcome m (.zeros 0) m.offset numReads :=
    ⟨PackedState.canonical_zeros 0, energyOfState?_zeros hempty, UInt64.lt_iff_toNat_lt.2 hreads⟩
  have hall : Evaluated m [⟨.zeros 0, some m.offset, numReads⟩] := fun r hr => by
    obtain rfl := List.mem_singleton.1 hr
    exact ⟨m.offset, rfl, ho⟩
  exact describes_ofSolutions? hall (by simp) hreads numReads.toNat_lt

omit [DecidableEq V] [TotallyOrdered α] in
theorem sampleWith_eq_ok_iff [Seedable μ] [Seedable γ] {a : Annealer α} {numReads fresh : UInt64}
    {set : SampleSet V α} :
    a.sampleWith μ γ m numReads fresh = .ok set ↔
      numReads ≠ 0 ∧ a.validate = .ok () ∧ a.isCancelled = false ∧
        (if m.isEmpty then Annealer.collectEmpty? m numReads
          else Annealer.collect? μ γ a m numReads.toNat (a.seed.getD fresh)) = some set := by
  rw [Annealer.sampleWith]
  by_cases hreads : numReads = 0
  · simp [hreads]
  · cases a.validate with
    | error cause => simp [hreads]
    | ok =>
      cases a.isCancelled with
      | true => simp [hreads]
      | false =>
        generalize (if m.isEmpty then Annealer.collectEmpty? m numReads
          else Annealer.collect? μ γ a m numReads.toNat (a.seed.getD fresh)) = result
        cases result <;> simp [hreads]

/-- Valid settings that are not cancelled give a sample set, and each sample set that is given
describes as many reads as were asked for. -/
theorem sampleWith_describes [Seedable μ] [Seedable γ] (hm : m.Reachable) (a : Annealer α)
    (numReads fresh : UInt64) :
    (a.validate = .ok () → a.isCancelled = false → numReads ≠ 0 →
      ∃ set, a.sampleWith μ γ m numReads fresh = .ok set) ∧
    ∀ set, a.sampleWith μ γ m numReads fresh = .ok set → set.Describes m numReads.toNat := by
  have hcollect : numReads ≠ 0 → ∃ set, (if m.isEmpty then Annealer.collectEmpty? m numReads
      else Annealer.collect? μ γ a m numReads.toNat (a.seed.getD fresh)) = some set ∧
        set.Describes m numReads.toNat := by
    intro hreads
    have hpos : 1 ≤ numReads.toNat := UInt64.lt_iff_toNat_lt.1 (UInt64.pos_iff_ne_zero.2 hreads)
    split
    · next hempty => exact exists_collectEmpty? hempty hpos
    · exact exists_collect? hm.wellFormed a hpos (a.seed.getD fresh)
  refine ⟨fun hvalid hcancel hreads => ?_, fun set hset => ?_⟩
  · obtain ⟨set, hset, -⟩ := hcollect hreads
    exact ⟨set, sampleWith_eq_ok_iff.2 ⟨hreads, hvalid, hcancel, hset⟩⟩
  · obtain ⟨hreads, -, -, hset⟩ := sampleWith_eq_ok_iff.1 hset
    obtain ⟨set', hset', hdescribes⟩ := hcollect hreads
    obtain rfl := Option.some.inj (hset'.symm.trans hset)
    exact hdescribes

theorem sampleWith_three_doubles :
    let m : Model Nat Float :=
      (((Model.empty .spin).addVariable 0 (1 / 10)).couple 0 1 (2 / 10)).addVariable 2 (0 / 0)
    let a : Annealer Float := { numSweeps := 4, sweepsPerBeta := 2 }
    m.Reachable ∧ a.validate = .ok () ∧ a.isCancelled = false ∧
      ∃ set, a.sampleWith ChaCha20 Pcg64 m 5 17 = .ok set ∧ set.Describes m 5 := by
  intro m a
  have hm : m.Reachable :=
    .addVariable 2 (0 / 0) (.addInteraction (.addVariable 0 (1 / 10) (.empty .spin))
      (u := 0) (v := 1) (b := 2 / 10) rfl)
  have hvalid : a.validate = .ok () := by
    simp [a, Annealer.validate, Betas.isSchedule, Betas.validate]
  have hcancel : a.isCancelled = false := rfl
  obtain ⟨hsome, hall⟩ := sampleWith_describes (μ := ChaCha20) (γ := Pcg64) hm a 5 17
  obtain ⟨set, hset⟩ := hsome hvalid hcancel (by decide)
  exact ⟨hm, hvalid, hcancel, set, hset, hall set hset⟩

end BinaryQuadratic.Annealing

import BinaryQuadratic.Proofs.Annealing.Metropolis
import BinaryQuadratic.Proofs.SampleSet

/-! Annealing a model and annealing it over the other domain. Fields, coefficients and steps differ,
but both runs see the same energies: they accept the same proposals and draw the same numbers. -/

namespace BinaryQuadratic.Annealing

open Coefficient Randomness

variable {V α μ γ : Type} [Exact α] {m : Model V α}

theorem scheduleFor_congr {b : Betas α} (h : b ≠ .auto) (i : Interpolation) (count : Nat)
    (m m' : Model V α) : b.scheduleFor i count m' = b.scheduleFor i count m := by
  cases b with
  | auto => exact absurd rfl h
  | range start stop => rfl
  | schedule betas => rfl

theorem len_metropolis [Generator γ] (energy : PackedState → α) (ps : List (α × Nat))
    (x : PackedState × γ) : (metropolis energy ps x).1.len = x.1.len := by
  induction ps generalizing x with
  | nil => rfl
  | cons p ps ih =>
    rw [metropolis, ih]
    split <;> rfl

section Reads

def finalState [Generator γ] (energy : PackedState → α) (n sweepsPerBeta : Nat)
    (schedule : List α) (g : γ) : PackedState :=
  (metropolis energy (proposals (List.range n) sweepsPerBeta schedule)
    (PackedState.random n g)).1

theorem read?_eq [Generator γ] (hm : m.WellFormed) (a : Annealer α) (g : γ) :
    ∃ s, s = finalState m.energyAt m.numVariables a.sweepsPerBeta (a.run m).schedule g ∧
      (a.run m).read? g = some ⟨s, some (m.energyAt s), 1⟩ := by
  have hsize : (a.run m).couplings.size = m.numVariables := Couplings.size_ofModel m
  have hanneal : anneal? (a.run m).couplings (a.run m).schedule (a.run m).sweepsPerBeta
      (PackedState.random m.numVariables g).1 (PackedState.random m.numVariables g).2 = _ :=
    anneal?_eq_metropolis hm (PackedState.fits_random m.numVariables g) rfl
      (a.run m).schedule a.sweepsPerBeta (PackedState.random m.numVariables g).2
  refine ⟨_, rfl, ?_⟩
  simp only [Run.read?, hsize, hanneal, Solution.evaluated?, Solution.energyIn?, Solution.ofState]
  exact congrArg (Option.map _) (hm.energyOfState?_eq (len_metropolis _ _ _))

variable {a : Annealer α}

theorem read?_toVartype [Generator γ] (hm : m.WellFormed) (t : Vartype) (h : a.betas ≠ .auto)
    (g : γ) : (a.run (m.toVartype t)).read? g = (a.run m).read? g := by
  have henergy : (m.toVartype t).energyAt = m.energyAt := by
    funext s
    exact hm.energyAt_toVartype t s
  have hschedule : (a.run (m.toVartype t)).schedule = (a.run m).schedule :=
    scheduleFor_congr h _ _ _ _
  -- the rule of Metropolis sees energies only, so that both runs draw and accept alike
  obtain ⟨s, rfl, hs⟩ := read?_eq hm a g
  obtain ⟨s', rfl, hs'⟩ := read?_eq (hm.toVartype t) a g
  rw [hs, hs', henergy, hschedule, hm.numVariables_toVartype]

theorem readAll?_toVartype [Seedable γ] (hm : m.WellFormed) (t : Vartype) (h : a.betas ≠ .auto)
    (seeds : List UInt64) :
    Annealer.readAll? γ (a.run (m.toVartype t)) seeds = Annealer.readAll? γ (a.run m) seeds := by
  induction seeds with
  | nil => rfl
  | cons seed rest ih =>
    rw [Annealer.readAll?, Annealer.readAll?, read?_toVartype hm t h, ih]

theorem readAll?_eq [Seedable γ] (hm : m.WellFormed) (a : Annealer α) (seeds : List UInt64) :
    ∃ solutions, Annealer.readAll? γ (a.run m) seeds = some solutions ∧
      ∀ s ∈ solutions, ∃ e, s.energy = some e := by
  induction seeds with
  | nil => exact ⟨[], rfl, by simp⟩
  | cons seed rest ih =>
    obtain ⟨solutions, hrest, hall⟩ := ih
    obtain ⟨s, -, hread⟩ := read?_eq hm a (Seedable.ofSeed seed : γ)
    refine ⟨⟨s, some (m.energyAt s), 1⟩ :: solutions, ?_, ?_⟩
    · rw [Annealer.readAll?, hread, hrest]
      rfl
    · rintro r (_ | ⟨_, hr⟩)
      · exact ⟨_, rfl⟩
      · exact hall r hr

end Reads

section Collections

variable {a : Annealer α}

theorem collect?_toVartype [Seedable μ] [Seedable γ] (hm : m.WellFormed) (t : Vartype)
    (h : a.betas ≠ .auto) (numReads : Nat) (seed : UInt64) :
    ∃ set, Annealer.collect? μ γ a m numReads seed = some set ∧
      Annealer.collect? μ γ a (m.toVartype t) numReads seed = some (set.changeVartype t) := by
  obtain ⟨solutions, hreads, henergies⟩ :=
    readAll?_eq (γ := γ) hm a (Annealer.readSeeds μ seed numReads)
  have hsome : ∀ s ∈ solutions, (s.energyIn? m).isSome := fun s hs => by
    obtain ⟨e, he⟩ := henergies s hs
    rw [Solution.energyIn?, he]
    rfl
  have hsame : ∀ s ∈ solutions, s.energyIn? (m.toVartype t) = s.energyIn? m := fun s hs => by
    obtain ⟨e, he⟩ := henergies s hs
    rw [Solution.energyIn?, Solution.energyIn?, he]
  obtain ⟨set, hset⟩ := SampleSet.ofSolutions?_isSome hsome
  refine ⟨set, ?_, ?_⟩
  · rw [Annealer.collect?, hreads, Option.bind_some, hset]
  · rw [Annealer.collect?, readAll?_toVartype hm t h, hreads, Option.bind_some,
      SampleSet.ofSolutions?_toVartype hm t hsame, hset, Option.map_some]

theorem collectEmpty?_toVartype (hm : m.WellFormed) (t : Vartype) (hempty : m.isEmpty = true)
    (numReads : UInt64) :
    ∃ set, Annealer.collectEmpty? m numReads = some set ∧
      Annealer.collectEmpty? (m.toVartype t) numReads = some (set.changeVartype t) := by
  have hnum := Model.numVariables_eq_zero hempty
  have hoffset : (m.toVartype t).offset = m.offset := by
    have henergy := hm.energyAt_toVartype t (.zeros 0)
    simpa [Model.energyAt, Model.polynomial, hm.numVariables_toVartype, hnum] using henergy
  have hread : ∀ s ∈ [(⟨.zeros 0, some m.offset, numReads⟩ : Solution α)],
      (s.energyIn? m).isSome := by
    simp [Solution.energyIn?]
  obtain ⟨set, hset⟩ := SampleSet.ofSolutions?_isSome hread
  refine ⟨set, hset, ?_⟩
  rw [Annealer.collectEmpty?, hoffset, SampleSet.ofSolutions?_toVartype hm t
    (by simp [Solution.energyIn?]), hset, Option.map_some]

end Collections

/-- Sampling a converted model gives the converted sample set: the same records in the same order,
with the same energies and occurrences. -/
theorem sampleWith_toVartype [DecidableEq V] [Seedable μ] [Seedable γ] (hm : m.Reachable)
    (t : Vartype) {a : Annealer α} (hvalid : a.validate = .ok ())
    (hcancel : a.isCancelled = false) (hbetas : a.betas ≠ .auto) {numReads : UInt64}
    (hreads : numReads ≠ 0) (fresh : UInt64) :
    ∃ set, a.sampleWith μ γ m numReads fresh = .ok set ∧
      a.sampleWith μ γ (m.toVartype t) numReads fresh = .ok (set.changeVartype t) := by
  have hw := hm.wellFormed
  have hisEmpty : (m.toVartype t).isEmpty = m.isEmpty := by
    rw [Bool.eq_iff_iff, ← Model.labels_eq_nil_iff, ← Model.labels_eq_nil_iff,
      hw.labels_toVartype]
  simp only [Annealer.sampleWith, hreads, hvalid, hcancel, hisEmpty, if_false, Bool.false_eq_true]
  cases hempty : m.isEmpty with
  | true =>
    obtain ⟨set, hset, hset'⟩ := collectEmpty?_toVartype hw t hempty numReads
    exact ⟨set, by simp [hset], by simp [hset']⟩
  | false =>
    obtain ⟨set, hset, hset'⟩ :=
      collect?_toVartype (μ := μ) (γ := γ) hw t hbetas numReads.toNat (a.seed.getD fresh)
    exact ⟨set, by simp [hset], by simp [hset']⟩

theorem sampleWith_toSpin_two_bits :
    let m : Model Nat ℝ := ((Model.empty .binary).addVariable 0 (-1)).couple 0 1 3
    let a : Annealer ℝ :=
      { numSweeps := 6, sweepsPerBeta := 2, interpolation := .linear, betas := .range 0 4
        seed := some 11 }
    m.Reachable ∧ a.validate = .ok () ∧ a.isCancelled = false ∧ a.betas ≠ .auto ∧
      ∃ set, a.sampleWith ChaCha20 Pcg64 m 3 0 = .ok set ∧
        a.sampleWith ChaCha20 Pcg64 (m.toVartype .spin) 3 0 = .ok (set.changeVartype .spin) := by
  intro m a
  have hm : m.Reachable :=
    .addInteraction (.addVariable 0 (-1) (.empty .binary)) (u := 0) (v := 1) (b := 3) rfl
  have hvalid : a.validate = .ok () := by
    norm_num [a, Annealer.validate, Betas.isSchedule, Betas.validate, not_lt]
    exact nofun
  have hcancel : a.isCancelled = false := rfl
  have hbetas : a.betas ≠ .auto := by nofun
  exact ⟨hm, hvalid, hcancel, hbetas,
    sampleWith_toVartype hm .spin hvalid hcancel hbetas (by decide) 0⟩

end BinaryQuadratic.Annealing

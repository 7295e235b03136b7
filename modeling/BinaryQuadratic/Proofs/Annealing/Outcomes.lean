import BinaryQuadratic.Proofs.Annealing.Samples
import BinaryQuadratic.Proofs.Model.Interactions
import BinaryQuadratic.Proofs.SampleSet

/-! How a call of the annealer ends. Settings are refused before the flag is looked at, and a call
that gets past both of them returns samples: nothing that is looked up on the way is missing,
whatever the coefficients are. -/

namespace BinaryQuadratic.Annealing

open Coefficient Randomness SampleSet

variable {V α μ γ : Type} {m : Model V α} {a : Annealer α}

section Settings

theorem Annealer.isCancelled_eq_true_iff : a.isCancelled = true ↔ a.cancel = some true := by
  simp [Annealer.isCancelled]

theorem Betas.isSchedule_eq_false_iff {b : Betas α} :
    b.isSchedule = false ↔ ∀ betas, b ≠ .schedule betas := by
  cases b <;> simp [Betas.isSchedule]

variable [Coefficient α]

theorem Annealer.validate_eq_ok_iff : a.validate = .ok () ↔
    a.sweepsPerBeta ≠ 0 ∧
    ((∀ betas, a.betas ≠ .schedule betas) → a.numSweeps ≠ 0 ∧ a.sweepsPerBeta ∣ a.numSweeps) ∧
    a.betas.validate a.interpolation = .ok () := by
  rw [← Betas.isSchedule_eq_false_iff, Nat.dvd_iff_mod_eq_zero, Annealer.validate]
  split
  · next h => simp [h]
  next h =>
  split
  · next hschedule => simp [h, hschedule]
  next hschedule =>
  split
  · next hsweeps => simp [hschedule, hsweeps]
  split <;> simp_all

theorem exists_error_iff {ε : Type} {x : Except ε Unit} :
    (∃ cause, x = .error cause) ↔ ¬x = .ok () := by
  cases x <;> simp

def Annealer.Refuses (a : Annealer α) (numReads : UInt64) : Prop :=
  numReads = 0 ∨ a.sweepsPerBeta = 0 ∨
    ((∀ betas, a.betas ≠ .schedule betas) ∧
      (a.numSweeps = 0 ∨ ¬a.sweepsPerBeta ∣ a.numSweeps)) ∨
    ∃ cause, a.betas.validate a.interpolation = .error cause

theorem Annealer.refuses_iff {numReads : UInt64} :
    a.Refuses numReads ↔ numReads = 0 ∨ ¬a.validate = .ok () := by
  rw [Annealer.Refuses, exists_error_iff, Annealer.validate_eq_ok_iff]
  tauto

theorem Annealer.sweepsPerBeta_ne_zero {r : Run V α} (h : a.prepare m = .ok r) :
    a.sweepsPerBeta ≠ 0 := by
  rw [Annealer.prepare] at h
  split at h
  · next hvalid => exact (Annealer.validate_eq_ok_iff.1 hvalid).1
  · cases h

end Settings

variable [Coefficient α]

/-- All that is looked up while a model is annealed is there: biases, rows and labels by position,
the bits of each state on the way, a field for each variable, and the terms of each energy. -/
structure Covers (m : Model V α) : Prop where
  bias : ∀ i < m.numVariables, ∃ b, m.biases[i]? = some b
  row : ∀ i < m.numVariables, ∃ ns, m.neighborhood? i = some ns
  ends : ∀ e ∈ m.interactions, ∃ u v, m.labelAt? e.1 = some u ∧ m.labelAt? e.2.1 = some v
  bits : ∀ s : PackedState, s.Canonical → ∀ i < s.len, s.holds i = true
  random : ∀ {γ : Type} [Generator γ] (g : γ), (PackedState.random m.numVariables g).1.Canonical
  fields : ∀ s : PackedState, s.Canonical → s.len = m.numVariables →
    ∃ fields, (Couplings.ofModel m).localFields? s = some fields ∧ fields.size = m.numVariables
  sweeps : ∀ {γ : Type} [Generator γ] (schedule : List α) (sweepsPerBeta : Nat) (s : PackedState)
    (g : γ), s.Canonical → s.len = m.numVariables →
      ∃ s' g', anneal? (.ofModel m) schedule sweepsPerBeta s g = some (s', g') ∧ s'.Canonical ∧
        s'.len = m.numVariables
  energy : ∀ s : PackedState, s.len = m.numVariables → ∃ e, m.energyOfState? s = some e
  merge : ∀ l : List (Solution α), (∀ r ∈ l, r.state.len = m.numVariables) →
    ∃ set, ofSolutions? m l = some set

theorem covers_of_wellFormed (hm : m.WellFormed) : Covers m where
  bias i hi := ⟨_, List.getElem?_eq_getElem (m.length_biases.symm ▸ hi)⟩
  row i hi := by
    rw [Model.neighborhood?, List.getElem?_eq_getElem (hm.length_adjacency.symm ▸ hi)]
    exact ⟨_, rfl⟩
  ends e he := hm.exists_labels he
  bits s hs i hi := by
    rw [hs.fits.holds_eq]
    exact decide_eq_true hi
  random g := PackedState.canonical_random _ g
  fields s hs hlen := Couplings.exists_localFields? hm hs.fits hlen
  sweeps schedule n s g hs hlen := exists_anneal? hm hs hlen schedule n g
  energy s hs := hm.exists_energyOfState? hs
  merge l hl := ofSolutions?_isSome fun r hr => by
    rw [Solution.energyIn?]
    split
    · rfl
    · obtain ⟨e, he⟩ := hm.exists_energyOfState? (hl r hr)
      rw [he]
      rfl

theorem exists_set [Seedable μ] [Seedable γ] (hm : m.WellFormed) (a : Annealer α)
    (numReads seed : UInt64) : ∃ set, (if m.isEmpty then Annealer.collectEmpty? m numReads
      else Annealer.collect? μ γ a m numReads.toNat seed) = some set := by
  have hcovers := covers_of_wellFormed hm
  split
  · next hempty =>
    refine hcovers.merge _ fun r hr => ?_
    obtain rfl := List.mem_singleton.1 hr
    exact (Model.numVariables_eq_zero hempty).symm
  · obtain ⟨l, hl, hall, -⟩ := exists_readAll? (γ := γ) hm a
      (Annealer.readSeeds μ seed numReads.toNat)
    rw [Annealer.collect?, hl, Option.bind_some]
    refine hcovers.merge l fun r hr => ?_
    obtain ⟨e, -, ho⟩ := hall r hr
    exact ho.len_eq

theorem sampleWith_cases [Seedable μ] [Seedable γ] (hm : m.WellFormed) (a : Annealer α)
    (numReads fresh : UInt64) :
    (a.Refuses numReads ∧ ∃ cause, a.sampleWith μ γ m numReads fresh = .error (.invalid cause)) ∨
    (¬a.Refuses numReads ∧ a.cancel = some true ∧
      a.sampleWith μ γ m numReads fresh = .error .cancelled) ∨
    (¬a.Refuses numReads ∧ a.cancel ≠ some true ∧
      ∃ set, a.sampleWith μ γ m numReads fresh = .ok set) := by
  rw [ne_eq, ← Annealer.isCancelled_eq_true_iff, Annealer.refuses_iff, Annealer.sampleWith]
  by_cases hreads : numReads = 0
  · simp [hreads]
  cases hvalid : a.validate with
  | error cause => simp [hreads]
  | ok =>
    cases hcancel : a.isCancelled with
    | true => simp [hreads]
    | false =>
      obtain ⟨set, hset⟩ := exists_set (μ := μ) (γ := γ) hm a numReads (a.seed.getD fresh)
      simp [hreads, hset]

/-- A call is refused for its settings or its number of reads only, it is cancelled if it is not
refused and the flag is set, and in all other cases it returns samples. No division is by zero, and
nothing that is looked up is missing. -/
theorem sampleWith_outcomes [DecidableEq V] [Seedable μ] [Seedable γ] (hm : m.Reachable)
    (a : Annealer α) (numReads fresh : UInt64) :
    ((∃ cause, a.sampleWith μ γ m numReads fresh = .error (.invalid cause)) ↔
      a.Refuses numReads) ∧
    (a.sampleWith μ γ m numReads fresh = .error .cancelled ↔
      ¬a.Refuses numReads ∧ a.cancel = some true) ∧
    ((∃ set, a.sampleWith μ γ m numReads fresh = .ok set) ↔
      ¬a.Refuses numReads ∧ a.cancel ≠ some true) ∧
    (∀ r, a.prepare m = .ok r → a.sweepsPerBeta ≠ 0) ∧ Covers m := by
  have hdivisor : ∀ r, a.prepare m = .ok r → a.sweepsPerBeta ≠ 0 := fun _ =>
    Annealer.sweepsPerBeta_ne_zero
  have hcovers := covers_of_wellFormed hm.wellFormed
  obtain ⟨hrefuses, cause, h⟩ | ⟨hrefuses, hcancel, h⟩ | ⟨hrefuses, hcancel, set, h⟩ :=
    sampleWith_cases (μ := μ) (γ := γ) hm.wellFormed a numReads fresh
  · refine ⟨?_, ?_, ?_, hdivisor, hcovers⟩ <;> simp [h, hrefuses]
  · refine ⟨?_, ?_, ?_, hdivisor, hcovers⟩ <;> simp [h, hrefuses, hcancel]
  · refine ⟨?_, ?_, ?_, hdivisor, hcovers⟩ <;> simp [h, hrefuses, hcancel]

theorem sampleWith_outcomes_explicit_schedule :
    let m : Model Nat Float := ((Model.empty .binary).couple 3 1 (1 / 0)).addVariable 3 (0 / 0)
    let a : Annealer Float :=
      { numSweeps := 3, sweepsPerBeta := 2, betas := .schedule [1, 2], cancel := some true }
    m.Reachable ∧ (∃ cause, a.sampleWith ChaCha20 Pcg64 m 0 5 = .error (.invalid cause)) ∧
      a.sampleWith ChaCha20 Pcg64 m 1 5 = .error .cancelled ∧
      (∃ set, { a with cancel := some false }.sampleWith ChaCha20 Pcg64 m 1 5 = .ok set) ∧
      Covers m := by
  intro m a
  have hm : m.Reachable :=
    .addVariable 3 (0 / 0) (.addInteraction (.empty .binary) (u := 3) (v := 1) (b := 1 / 0) rfl)
  have hvalid : a.betas.validate a.interpolation = .ok () := by decide
  have hrefuses : ¬a.Refuses 1 := by
    rintro (h | h | ⟨h, -⟩ | ⟨cause, h⟩)
    · cases h
    · cases h
    · exact h _ rfl
    · rw [hvalid] at h
      cases h
  obtain ⟨hnone, -, -, -, hcovers⟩ :=
    sampleWith_outcomes (μ := ChaCha20) (γ := Pcg64) hm a 0 5
  obtain ⟨-, hcancelled, -⟩ := sampleWith_outcomes (μ := ChaCha20) (γ := Pcg64) hm a 1 5
  obtain ⟨-, -, hok, -⟩ := sampleWith_outcomes (μ := ChaCha20) (γ := Pcg64) hm
    { a with cancel := some false } 1 5
  exact ⟨hm, hnone.2 (.inl rfl), hcancelled.2 ⟨hrefuses, rfl⟩, hok.2 ⟨hrefuses, by decide⟩, hcovers⟩

end BinaryQuadratic.Annealing

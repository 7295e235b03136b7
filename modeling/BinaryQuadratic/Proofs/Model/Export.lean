import BinaryQuadratic.Proofs.Model.Assembly

/-! Writing a model out as dictionaries of coefficients over either domain, and reading it in again.
No two coefficients have the same key. -/

namespace BinaryQuadratic.Model

open Coefficient

variable {V α : Type} {m m' : Model V α}

section Dictionaries

def byPair (l : List (V × V × α)) : List ((V × V) × α) := l.map fun e => ((e.1, e.2.1), e.2.2)

theorem nodup_keys_quadraticTerms (m : Model V α) :
    ((byPair m.quadraticTerms).map Prod.fst).Nodup := by
  simpa [byPair, interactingPairs, Function.comp_def] using m.nodup_interactingPairs

theorem nodup_keys_toQubo [Coefficient α] (m : Model V α) :
    ((byPair m.toQubo.1).map Prod.fst).Nodup := by
  set m₁ := m.toVartype .binary with hm₁
  have hkeys : (byPair m.toQubo.1).map Prod.fst =
      m₁.labels.map (fun v => (v, v)) ++ m₁.interactingPairs := by
    simp [toQubo, byPair, labels, OrderedMap.keys, interactingPairs, Function.comp_def, ← hm₁]
  rw [hkeys]
  refine (m₁.nodup_labels.map fun u v h => (Prod.mk.inj h).1).append m₁.nodup_interactingPairs ?_
  intro p hp hp'
  obtain ⟨v, -, rfl⟩ := List.mem_map.1 hp
  obtain ⟨e, he, heq⟩ := List.mem_map.1 hp'
  obtain ⟨hu, hv⟩ := Prod.mk.inj heq
  exact ne_of_mem_quadraticTerms he (hu.trans hv.symm)

end Dictionaries

variable [Exact α]

/-- The second model has the given domain and otherwise the variables and energies of the first. If
the first has that domain as well, then they have the same coefficients in the same order. -/
structure Restores (m m' : Model V α) (t : Vartype) : Prop where
  vartype_eq : m'.vartype = t
  labels_eq : m'.labels = m.labels
  energyOfState?_eq : ∀ s, m'.energyOfState? s = m.energyOfState? s
  exists_energy : ∀ s : PackedState, s.len = m.numVariables → ∃ e, m'.energyOfState? s = some e
  native : m.vartype = t → m'.linear = m.linear ∧ m'.quadraticTerms = m.quadraticTerms ∧
    m'.offset = m.offset

theorem Copies.restores {t : Vartype} (h : Copies (m.toVartype t) m') (hw : m.WellFormed)
    (hw' : m'.WellFormed) : Restores m m' t where
  vartype_eq := h.vartype_eq.trans (vartype_toVartype m t)
  labels_eq := h.labels_eq.trans (hw.labels_toVartype t)
  energyOfState?_eq s :=
    (h.energyOfState?_eq (hw.toVartype t) hw' s).trans (hw.energyOfState?_toVartype t s)
  exists_energy s hs := ⟨m.energyAt s, by
    rw [h.energyOfState?_eq (hw.toVartype t) hw', hw.energyOfState?_toVartype,
      hw.energyOfState?_eq hs]⟩
  native hnative := by
    subst hnative
    rw [toVartype_vartype] at h
    exact ⟨h.linear_eq, h.quadraticTerms_eq, h.offset_eq⟩

variable [DecidableEq V]

theorem WellFormed.restores_assemble (h : m.WellFormed) (t : Vartype) :
    Restores m ((assemble t (m.toVartype t).linear.entries
      (m.toVartype t).quadraticTerms).addOffset (m.toVartype t).offset) t := by
  have hcopies := (h.toVartype t).copies_assemble
  rw [vartype_toVartype] at hcopies
  exact hcopies.restores h ((wellFormed_assemble ..).addOffset _)

/-- Both exports are dictionaries, since no key occurs twice in them, and the model can be read from
either. Reading couplings in never fails. -/
theorem exports_restore (hm : m.Reachable) :
    ((OrderedMap.ofList (byPair m.toQubo.1)).entries = byPair m.toQubo.1 ∧
      Restores m ((ofQubo m.toQubo.1).addOffset m.toQubo.2) .binary) ∧
    ((OrderedMap.ofList m.toIsing.1).entries = m.toIsing.1 ∧
      (OrderedMap.ofList (byPair m.toIsing.2.1)).entries = byPair m.toIsing.2.1 ∧
      ∃ m', ofIsing m.toIsing.1 m.toIsing.2.1 = .ok m' ∧
        Restores m (m'.addOffset m.toIsing.2.2) .spin) := by
  have hw := hm.wellFormed
  have hne : ∀ t, ∀ e ∈ (m.toVartype t).quadraticTerms, e.1 ≠ e.2.1 := fun _ _ =>
    ne_of_mem_quadraticTerms
  refine ⟨⟨OrderedMap.entries_ofList m.nodup_keys_toQubo, ?_⟩,
    OrderedMap.entries_ofList (m.toVartype .spin).linear.nodup,
    OrderedMap.entries_ofList (m.toVartype .spin).nodup_keys_quadraticTerms,
    _, ofIsing_eq_assemble (hne .spin), hw.restores_assemble .spin⟩
  have hqubo : ofQubo m.toQubo.1 = assemble .binary (m.toVartype .binary).linear.entries
      (m.toVartype .binary).quadraticTerms := ofQubo_eq_assemble (hne .binary)
  rw [hqubo]
  exact hw.restores_assemble .binary

theorem exports_restore_four_spins :
    let m : Model Nat ℝ := (((((empty .spin).addVariable 7 0).couple 2 0 (1 / 2)).couple 0 5
      (-3)).couple 5 2 4).addOffset (1 / 3)
    m.Reachable ∧ m.labels = [7, 2, 0, 5] ∧ m.interactingPairs = [(2, 0), (2, 5), (0, 5)] ∧
      Restores m ((ofQubo m.toQubo.1).addOffset m.toQubo.2) .binary ∧
      ∃ m', ofIsing m.toIsing.1 m.toIsing.2.1 = .ok m' ∧
        Restores m (m'.addOffset m.toIsing.2.2) .spin ∧ m'.quadraticTerms = m.quadraticTerms := by
  intro m
  have hm : m.Reachable :=
    .addOffset _ (.addInteraction (.addInteraction (.addInteraction (.addVariable 7 0
      (.empty .spin)) (u := 2) (v := 0) (b := 1 / 2) rfl) (u := 0) (v := 5) (b := -3) rfl)
      (u := 5) (v := 2) (b := 4) rfl)
  obtain ⟨⟨-, hqubo⟩, -, -, m', hread, hising⟩ := exports_restore hm
  exact ⟨hm, rfl, rfl, hqubo, m', hread, hising, (hising.native rfl).2.1⟩

end BinaryQuadratic.Model

import BinaryQuadratic.Proofs.Model.Evaluation
import BinaryQuadratic.Proofs.Model.Energy

/-! Energies of labelled assignments. An assignment in the domain has the energy of the state of its
bits, in the model and in the converted model. -/

namespace BinaryQuadratic

open Coefficient

variable {V α : Type} [Exact α]

def bitValues (b : V → Bool) : V → α := fun v => if b v then 1 else 0

theorem value_binary (b : Bool) : ((Vartype.binary.value b : Int) : α) = if b then 1 else 0 := by
  cases b <;> simp [Vartype.value]

namespace Model

variable {m : Model V α} {s : Assignment V}

theorem energyAt_ofBits (m : Model V α) (b : V → Bool) :
    m.energyAt (.ofBits (m.labels.map b)) =
      m.evaluate fun v => ((m.vartype.value (b v) : Int) : α) := by
  rw [energyAt, evaluate]
  apply polynomial_congr
  intro i hi
  have hi' : i < m.labels.length := m.length_labels.symm ▸ hi
  rw [PackedState.coordinate, PackedState.bit_ofBits, labelAt?_eq, List.getElem?_eq_getElem hi']
  simp [List.getD_eq_getElem?_getD, List.getElem?_eq_getElem hi']

theorem WellFormed.energy_eq_energyAt (h : m.WellFormed) (hs : s.InDomain m.vartype m.labels) :
    m.energy s = .ok (m.energyAt (.ofBits (m.labels.map (s.bit m.vartype)))) :=
  energy_of_inDomain hs (h.energyOfState?_eq (by simp))

theorem WellFormed.energy_eq (h : m.WellFormed) (hs : s.InDomain m.vartype m.labels) :
    m.energy s = .ok (m.evaluate fun v => ((m.vartype.value (s.bit m.vartype v) : Int) : α)) := by
  rw [h.energy_eq_energyAt hs, energyAt_ofBits]

theorem WellFormed.energy_toVartype (h : m.WellFormed) (t : Vartype)
    (hs : s.InDomain t m.labels) :
    (m.toVartype t).energy s =
      .ok (m.evaluate fun v => ((m.vartype.value (s.bit t v) : Int) : α)) := by
  have hs' : s.InDomain (m.toVartype t).vartype (m.toVartype t).labels := by
    rwa [vartype_toVartype, h.labels_toVartype]
  rw [(h.toVartype t).energy_eq_energyAt hs', h.energyAt_toVartype, h.labels_toVartype,
    vartype_toVartype, energyAt_ofBits]

def IsGround (m : Model V α) (s : Assignment V) : Prop :=
  ∃ e, m.energy s = .ok e ∧
    ∀ s' : Assignment V, s'.InDomain m.vartype m.labels → ∃ e', m.energy s' = .ok e' ∧ e ≤ e'

theorem isGround_iff {f : Assignment V → α}
    (hf : ∀ s : Assignment V, s.InDomain m.vartype m.labels → m.energy s = .ok (f s))
    (hs : s.InDomain m.vartype m.labels) :
    m.IsGround s ↔ ∀ s' : Assignment V, s'.InDomain m.vartype m.labels → f s ≤ f s' := by
  constructor
  · rintro ⟨e, he, hleast⟩ s' hs'
    obtain ⟨e', he', hle⟩ := hleast s' hs'
    obtain rfl := Except.ok.inj ((hf s hs).symm.trans he)
    obtain rfl := Except.ok.inj ((hf s' hs').symm.trans he')
    exact hle
  · intro hleast
    exact ⟨f s, hf s hs, fun s' hs' => ⟨f s', hf s' hs', hleast s' hs'⟩⟩

end Model

end BinaryQuadratic

import BinaryQuadratic.Coefficient.Binary64
import BinaryQuadratic.Proofs.Model.WellFormed
import BinaryQuadratic.Proofs.PackedState.Access
import BinaryQuadratic.SampleSet.Basic

/-! Which assignments have an energy, and which one. Each state that fits a well-formed model has
one, and an assignment has that of the state of its bits, unless a variable lacks a value or has one
outside of the domain. No law of the coefficients is used. -/

namespace BinaryQuadratic

section Domain

variable {V : Type}

def Assignment.bit (s : Assignment V) (t : Vartype) (v : V) : Bool :=
  ((s v).bind t.bit?).getD false

def Assignment.InDomain (s : Assignment V) (t : Vartype) (vs : List V) : Prop :=
  ∀ v ∈ vs, ∃ b, s v = some (t.value b)

theorem Assignment.InDomain.eq_value {s : Assignment V} {t : Vartype} {vs : List V}
    (h : s.InDomain t vs) : ∀ v ∈ vs, s v = some (t.value (s.bit t v)) := by
  intro v hv
  obtain ⟨b, hb⟩ := h v hv
  simp [Assignment.bit, hb]

theorem Assignment.InDomain.ne_none {s : Assignment V} {t : Vartype} {vs : List V}
    (h : s.InDomain t vs) : ∀ v ∈ vs, s v ≠ none := fun v hv => by
  rw [h.eq_value v hv]
  exact Option.some_ne_none _

theorem Assignment.InDomain.mem_values {s : Assignment V} {t : Vartype} {vs : List V}
    (h : s.InDomain t vs) {v : V} (hv : v ∈ vs) {x : Int} (hx : s v = some x) : x ∈ t.values := by
  obtain ⟨b, hb⟩ := h v hv
  exact Vartype.mem_values_iff.2 ⟨b, Option.some.inj (hx.symm.trans hb)⟩

def Assignment.ofBits (t : Vartype) (b : V → Bool) : Assignment V := fun v => some (t.value (b v))

theorem Assignment.inDomain_ofBits (t : Vartype) (b : V → Bool) (vs : List V) :
    (ofBits t b).InDomain t vs := fun v _ => ⟨b v, rfl⟩

@[simp] theorem Assignment.bit_ofBits (t : Vartype) (b : V → Bool) : (ofBits t b).bit t = b := by
  funext v
  simp [bit, ofBits]

end Domain

namespace Model

variable {V α : Type} [Coefficient α] {m : Model V α}

section States

theorem exists_addRowEnergy {x : Array α} (i : Nat) (xi : α) {row : List (Nat × α)}
    (h : ∀ p ∈ row, p.1 < x.size) (e : α) : ∃ e', addRowEnergy x i xi row e = some e' := by
  induction row generalizing e with
  | nil => exact ⟨e, rfl⟩
  | cons p row ih =>
    have hrow : ∀ q ∈ row, q.1 < x.size := fun q hq => h q (List.mem_cons_of_mem _ hq)
    rw [addRowEnergy, Array.getElem?_eq_getElem (h p (by simp))]
    split
    · exact ih hrow _
    · exact ih hrow e

theorem exists_addEnergyFrom {x : Array α} {rows : List (α × OrderedMap Nat α)} {i : Nat}
    (hi : i + rows.length ≤ x.size) (h : ∀ p ∈ rows, ∀ j ∈ p.2.keys, j < x.size) (e : α) :
    ∃ e', addEnergyFrom x i rows e = some e' := by
  induction rows generalizing i e with
  | nil => exact ⟨e, rfl⟩
  | cons p rows ih =>
    rw [List.length_cons] at hi
    have hentries : ∀ q ∈ p.2.entries, q.1 < x.size := fun q hq =>
      h p (by simp) q.1 (List.mem_map_of_mem hq)
    have hlt : i < x.size := by omega
    obtain ⟨e', he'⟩ := exists_addRowEnergy i x[i] hentries (e + p.1 * x[i])
    rw [addEnergyFrom, Array.getElem?_eq_getElem hlt]
    simp only [he']
    exact ih (by omega) (fun q hq => h q (List.mem_cons_of_mem _ hq)) e'

theorem WellFormed.exists_energyOfState? (h : m.WellFormed) {s : PackedState}
    (hs : s.len = m.numVariables) : ∃ e, m.energyOfState? s = some e := by
  rw [energyOfState?, if_pos hs, energyOfValues?]
  refine exists_addEnergyFrom ?_ (fun p hp j hj => ?_) _
  · simp [coordinates_eq, hs]
  · have := h.lt_of_mem_keys (List.of_mem_zip hp).2 hj
    simpa [coordinates_eq, hs] using this

end States

section Assignments

variable {s s' : Assignment V}

theorem energy_congr (h : ∀ v ∈ m.labels, s v = s' v) : m.energy s = m.energy s' := by
  have hmissing : (m.labels.filter fun v => (s v).isNone) =
      m.labels.filter fun v => (s' v).isNone :=
    List.filter_congr fun v hv => by rw [h v hv]
  rw [energy, energy, hmissing, List.filterMap_congr h]

theorem energy_of_unassigned (h : ∃ v ∈ m.labels, s v = none) :
    m.energy s = .error (.unassigned (m.labels.filter fun v => (s v).isNone)) := by
  obtain ⟨v, hv, hnone⟩ := h
  have hmem : v ∈ m.labels.filter fun v => (s v).isNone :=
    List.mem_filter.2 ⟨hv, by simp [hnone]⟩
  rw [energy]
  split
  · next hnil => simp [hnil] at hmem
  · rfl

omit [Coefficient α] in
theorem filter_isNone_eq_nil (h : ∀ v ∈ m.labels, s v ≠ none) :
    (m.labels.filter fun v => (s v).isNone) = [] := by
  rw [List.filter_eq_nil_iff]
  intro v hv
  simp [h v hv]

theorem energy_of_outsideDomain (h : ∀ v ∈ m.labels, s v ≠ none)
    (hout : ∃ v ∈ m.labels, ∃ x, s v = some x ∧ x ∉ m.vartype.values) :
    m.energy s = .error (.outsideDomain m.vartype) := by
  obtain ⟨v, hv, x, hx, hout⟩ := hout
  have hnone : PackedState.ofValues? m.vartype (m.labels.filterMap s) = none :=
    PackedState.ofValues?_eq_none_iff.2 ⟨x, List.mem_filterMap.2 ⟨v, hv, hx⟩, hout⟩
  simp only [energy, filter_isNone_eq_nil h, hnone]

omit [Coefficient α] in
theorem ofValues?_of_inDomain (h : s.InDomain m.vartype m.labels) :
    PackedState.ofValues? m.vartype (m.labels.filterMap s) =
      some (.ofBits (m.labels.map (s.bit m.vartype))) := by
  have hvalues : m.labels.filterMap s = (m.labels.map (s.bit m.vartype)).map m.vartype.value := by
    rw [List.map_map, ← List.filterMap_eq_map]
    exact List.filterMap_congr h.eq_value
  rw [PackedState.ofValues?, PackedState.mapM_bit?_eq_some_iff.2 hvalues, Option.map_some]

theorem energy_of_inDomain (h : s.InDomain m.vartype m.labels) {e : α}
    (he : m.energyOfState? (.ofBits (m.labels.map (s.bit m.vartype))) = some e) :
    m.energy s = .ok e := by
  have hmissing := filter_isNone_eq_nil h.ne_none
  simp only [energy, hmissing, ofValues?_of_inDomain h, he]

structure Represents (m : Model V α) (s : Assignment V) (st : PackedState) : Prop where
  len_eq : st.len = m.numVariables
  bit_eq : ∀ i v, m.labels[i]? = some v → (s v).bind m.vartype.bit? = some (st.bit i)

omit [Coefficient α] in
theorem Represents.bits_eq {st : PackedState} (h : m.Represents s st) :
    st.bits = m.labels.map (s.bit m.vartype) := by
  refine List.ext_getElem (by simp [h.len_eq]) fun i hi hi' => ?_
  have hi'' : i < m.labels.length := by simpa using hi'
  have hbit := h.bit_eq i m.labels[i] (List.getElem?_eq_getElem hi'')
  simp [PackedState.bits, Assignment.bit, hbit]

omit [Coefficient α] in
theorem exists_represents_iff :
    (∃ st, m.Represents s st) ↔ s.InDomain m.vartype m.labels := by
  constructor
  · rintro ⟨st, h⟩ v hv
    obtain ⟨i, hi⟩ := List.mem_iff_getElem?.1 hv
    obtain ⟨x, hx, hbit⟩ := Option.bind_eq_some_iff.1 (h.bit_eq i v hi)
    exact ⟨st.bit i, hx.trans (congrArg some (Vartype.bit?_eq_some_iff.1 hbit))⟩
  · intro h
    refine ⟨.ofBits (m.labels.map (s.bit m.vartype)), by simp, fun i v hi => ?_⟩
    rw [PackedState.bit_ofBits, List.getD_eq_getElem?_getD, List.getElem?_map, hi,
      h.eq_value v (List.mem_of_getElem? hi)]
    simp

theorem Represents.energyOfState?_eq {st : PackedState} (h : m.Represents s st) :
    m.energyOfState? st = m.energyOfState? (.ofBits (m.labels.map (s.bit m.vartype))) := by
  rw [energyOfState?, energyOfState?, h.len_eq, h.bits_eq, PackedState.bits_ofBits]
  simp

theorem WellFormed.energy_cases (hm : m.WellFormed) (s : Assignment V) :
    ((∃ v ∈ m.labels, s v = none) ∧
      m.energy s = .error (.unassigned (m.labels.filter fun v => (s v).isNone))) ∨
    (((∀ v ∈ m.labels, s v ≠ none) ∧
        ∃ v ∈ m.labels, ∃ x, s v = some x ∧ x ∉ m.vartype.values) ∧
      m.energy s = .error (.outsideDomain m.vartype)) ∨
    (s.InDomain m.vartype m.labels ∧ ∃ e, m.energy s = .ok e) := by
  by_cases hnone : ∃ v ∈ m.labels, s v = none
  · exact .inl ⟨hnone, energy_of_unassigned hnone⟩
  have hsome : ∀ v ∈ m.labels, s v ≠ none := fun v hv h => hnone ⟨v, hv, h⟩
  by_cases hout : ∃ v ∈ m.labels, ∃ x, s v = some x ∧ x ∉ m.vartype.values
  · exact .inr (.inl ⟨⟨hsome, hout⟩, energy_of_outsideDomain hsome hout⟩)
  have hdomain : s.InDomain m.vartype m.labels := by
    intro v hv
    obtain ⟨x, hx⟩ := Option.ne_none_iff_exists'.1 (hsome v hv)
    obtain ⟨b, rfl⟩ := Vartype.mem_values_iff.1 (by_contra fun h => hout ⟨v, hv, x, hx, h⟩)
    exact ⟨b, hx⟩
  obtain ⟨e, he⟩ := hm.exists_energyOfState? (s := .ofBits (m.labels.map (s.bit m.vartype)))
    (by simp)
  exact .inr (.inr ⟨hdomain, e, energy_of_inDomain hdomain he⟩)

end Assignments

section Labels

variable [DecidableEq V] [Label V]

structure LabelledEnergies (m : Model V α) : Prop where
  unassigned_iff : ∀ s : Assignment V,
    (∃ vs, m.energy s = .error (.unassigned vs)) ↔ ∃ v ∈ m.labels, s v = none
  unassigned : ∀ (s : Assignment V) vs, m.energy s = .error (.unassigned vs) →
    vs.Sublist m.labels ∧ (∀ v, v ∈ vs ↔ v ∈ m.labels ∧ s v = none) ∧
      (ModelError.unassigned vs).message = "incomplete assignment: missing " ++
        Text.bracketed (vs.map fun v => Text.quoted (Label.marked v))
  outsideDomain_iff : ∀ (s : Assignment V) t, m.energy s = .error (.outsideDomain t) ↔
    t = m.vartype ∧ (∀ v ∈ m.labels, s v ≠ none) ∧
      ∃ v ∈ m.labels, ∃ x, s v = some x ∧ x ∉ m.vartype.values
  ok_iff : ∀ s : Assignment V, (∃ e, m.energy s = .ok e) ↔ s.InDomain m.vartype m.labels
  exists_represents : ∀ s : Assignment V, s.InDomain m.vartype m.labels → ∃ st, m.Represents s st
  energy_eq : ∀ s st, m.Represents s st →
    ∃ e, m.energyOfState? st = some e ∧ m.energy s = .ok e
  energy_congr : ∀ s s' : Assignment V, (∀ v ∈ m.labels, s v = s' v) → m.energy s = m.energy s'
  energy_perm : ∀ x y : Sample V, (x.entries.filter fun e => e.1 ∈ m.labels).Perm
    (y.entries.filter fun e => e.1 ∈ m.labels) → m.energy x.assignment = m.energy y.assignment
  energy_hashMap : ∀ [Hashable V] (x : Sample V),
    m.energy (fun v => (Std.HashMap.ofList x.entries)[v]?) = m.energy x.assignment

omit [Label V] in
theorem energy_eq_of_perm {x y : Sample V} (h : (x.entries.filter fun e => e.1 ∈ m.labels).Perm
    (y.entries.filter fun e => e.1 ∈ m.labels)) : m.energy x.assignment = m.energy y.assignment :=
  energy_congr fun _ hv =>
    OrderedMap.find?_eq_of_perm (p := fun v => v ∈ m.labels) h (decide_eq_true hv)

/-- Missing values are reported before values outside of the domain, and any other assignment has
the energy of the state of its bits. Only the values of the variables of the model count, however
they are stored. -/
theorem Reachable.labelledEnergies (hm : m.Reachable) : m.LabelledEnergies where
  unassigned_iff s := by
    rcases hm.wellFormed.energy_cases s with ⟨h, he⟩ | ⟨⟨h, -⟩, he⟩ | ⟨h, e, he⟩
    · exact iff_of_true ⟨_, he⟩ h
    · exact iff_of_false (he ▸ nofun) fun ⟨v, hv, hnone⟩ => h v hv hnone
    · exact iff_of_false (he ▸ nofun) fun ⟨v, hv, hnone⟩ => h.ne_none v hv hnone
  unassigned s vs h := by
    rcases hm.wellFormed.energy_cases s with ⟨-, he⟩ | ⟨-, he⟩ | ⟨-, e, he⟩
    · obtain rfl := ModelError.unassigned.inj (Except.error.inj (he.symm.trans h))
      exact ⟨List.filter_sublist, fun v => by simp, rfl⟩
    · cases he.symm.trans h
    · cases he.symm.trans h
  outsideDomain_iff s t := by
    rcases hm.wellFormed.energy_cases s with ⟨⟨v, hv, hnone⟩, he⟩ | ⟨h, he⟩ | ⟨h, e, he⟩
    · exact iff_of_false (he ▸ nofun) fun ⟨_, hall, _⟩ => hall v hv hnone
    · simp only [he, Except.error.injEq, ModelError.outsideDomain.injEq, eq_comm, and_iff_left h]
    · exact iff_of_false (he ▸ nofun) fun ⟨_, _, v, hv, x, hx, hout⟩ => hout (h.mem_values hv hx)
  ok_iff s := by
    rcases hm.wellFormed.energy_cases s with
      ⟨⟨v, hv, hnone⟩, he⟩ | ⟨⟨-, v, hv, x, hx, hout⟩, he⟩ | ⟨h, he⟩
    · exact iff_of_false (he ▸ nofun) fun h => h.ne_none v hv hnone
    · exact iff_of_false (he ▸ nofun) fun h => hout (h.mem_values hv hx)
    · exact iff_of_true he h
  exists_represents s h := exists_represents_iff.2 h
  energy_eq s st h := by
    obtain ⟨e, he⟩ := hm.wellFormed.exists_energyOfState? h.len_eq
    exact ⟨e, he, energy_of_inDomain (exists_represents_iff.1 ⟨st, h⟩) (h.energyOfState?_eq ▸ he)⟩
  energy_congr _ _ := energy_congr
  energy_perm _ _ := energy_eq_of_perm
  energy_hashMap x := energy_congr fun v _ => x.getElem?_ofList_entries v

theorem labelledEnergies_two_spins :
    let m : Model Name Float := (empty .spin).couple (.number 4) (.text "b") 2
    let missing : Sample Name := .ofList [(.text "b", 7)]
    let outside : Sample Name := .ofList [(.number 9, 0), (.text "b", 7), (.number 4, -1)]
    let given : Sample Name := .ofList [(.text "b", 1), (.number 9, 0), (.number 4, -1)]
    m.Reachable ∧ (∃ vs, m.energy missing.assignment = .error (.unassigned vs)) ∧
      m.energy outside.assignment = .error (.outsideDomain .spin) ∧
      m.energy given.assignment = .ok (-2) ∧
      m.energy (fun v => (Std.HashMap.ofList given.entries)[v]?) = .ok (-2) := by
  intro m missing outside given
  have hm : m.Reachable :=
    .addInteraction (.empty .spin) (u := .number 4) (v := .text "b") (b := 2) rfl
  have h := hm.labelledEnergies
  have hlabels : m.labels = [.number 4, .text "b"] := by decide
  have hmissing := (h.unassigned_iff missing.assignment).2 (by rw [hlabels]; decide)
  have houtside : m.energy outside.assignment = .error (.outsideDomain .spin) :=
    (h.outsideDomain_iff _ _).2 ⟨rfl, by rw [hlabels]; decide,
      .text "b", by rw [hlabels]; simp, 7, rfl, by decide⟩
  have hgiven : m.Represents given.assignment (.ofBits [false, true]) := by
    refine ⟨by decide, fun i v hi => ?_⟩
    rw [hlabels] at hi
    match i, hi with
    | 0, rfl => decide
    | 1, rfl => decide
  obtain ⟨e, he, henergy⟩ := h.energy_eq _ _ hgiven
  have hvalue : m.energyOfState? (.ofBits [false, true]) = some (-2) := by decide +kernel
  obtain rfl := Option.some.inj (he.symm.trans hvalue)
  exact ⟨hm, hmissing, houtside, henergy, (h.energy_hashMap given).trans henergy⟩

end Labels

end Model

end BinaryQuadratic

import BinaryQuadratic.Proofs.Model.Conversion

/-! Converting a model there and back. A model is determined by its labels, its rows and the values
of its polynomial, and a round trip changes none of them. -/

namespace BinaryQuadratic.Model

open Finset Coefficient

variable {V α : Type} [Exact α] {m m' : Model V α}

theorem polynomial_zero (m : Model V α) : m.polynomial (fun _ => 0) = m.offset := by
  simp [polynomial]

theorem WellFormed.bias_eq_polynomial_sub (h : m.WellFormed) {i : Nat} (hi : i < m.numVariables) :
    m.bias i = m.polynomial (Function.update (fun _ => 0) i 1) - m.polynomial fun _ => 0 := by
  rw [h.polynomial_update hi, field]
  simp

theorem biases_eq_of_bias_eq (hn : m'.numVariables = m.numVariables)
    (h : ∀ i < m.numVariables, m'.bias i = m.bias i) : m'.biases = m.biases := by
  refine List.ext_getElem (by simpa using hn) fun i hi hi' => ?_
  have := h i (by simpa using hi')
  rwa [bias, bias, List.getD_eq_getElem _ _ hi, List.getD_eq_getElem _ _ hi'] at this

theorem eq_of_polynomial_eq (h : m.WellFormed) (h' : m'.WellFormed)
    (ht : m'.vartype = m.vartype) (hl : m'.labels = m.labels) (ha : m'.adjacency = m.adjacency)
    (hp : ∀ y, m'.polynomial y = m.polynomial y) : m' = m := by
  have hn : m'.numVariables = m.numVariables := by
    rw [← length_labels, ← length_labels, hl]
  have hb : m'.biases = m.biases := biases_eq_of_bias_eq hn fun i hi => by
    rw [h.bias_eq_polynomial_sub hi, h'.bias_eq_polynomial_sub (hn ▸ hi), hp, hp]
  have ho : m'.offset = m.offset := by
    rw [← polynomial_zero, ← polynomial_zero, hp]
  have hlinear : m'.linear = m.linear := OrderedMap.eq_of_keys_of_values hl hb
  cases m
  cases m'
  simp_all

omit [Exact α] in
theorem rows_map_map {f g : α → α} (h : Function.LeftInverse g f) (rows : List (OrderedMap Nat α)) :
    (rows.map (OrderedMap.map f)).map (OrderedMap.map g) = rows := by
  rw [List.map_map]
  exact (List.map_congr_left fun row _ => row.map_map_of_leftInverse h).trans (List.map_id _)

theorem WellFormed.toBinary_toSpin (h : m.WellFormed) (hm : m.vartype = .binary) :
    m.toSpin.toBinary = m := by
  have hs : m.toSpin.WellFormed := h.rebias ..
  refine eq_of_polynomial_eq h (hs.rebias ..) hm.symm ?_ (rows_map_map (fun b => ?_) m.adjacency)
    fun y => ?_
  · exact (hs.labels_rebias ..).trans (h.labels_rebias ..)
  · simp
  · rw [hs.polynomial_toBinary, h.polynomial_toSpin]
    congr 1
    funext i
    ring

theorem WellFormed.toSpin_toBinary (h : m.WellFormed) (hm : m.vartype = .spin) :
    m.toBinary.toSpin = m := by
  have hb : m.toBinary.WellFormed := h.rebias ..
  refine eq_of_polynomial_eq h (hb.rebias ..) hm.symm ?_ (rows_map_map (fun b => ?_) m.adjacency)
    fun y => ?_
  · exact (hb.labels_rebias ..).trans (h.labels_rebias ..)
  · simp
  · rw [hb.polynomial_toSpin, h.polynomial_toBinary]
    congr 1
    funext i
    ring

theorem WellFormed.toVartype_toVartype (h : m.WellFormed) (t : Vartype) :
    (m.toVartype t).toVartype m.vartype = m := by
  cases hm : m.vartype with
  | binary =>
    cases t with
    | binary => simp only [Model.toVartype, hm]
    | spin =>
      simp only [Model.toVartype, hm]
      exact h.toBinary_toSpin hm
  | spin =>
    cases t with
    | binary =>
      simp only [Model.toVartype, hm]
      exact h.toSpin_toBinary hm
    | spin => simp only [Model.toVartype, hm]

theorem WellFormed.energyOfState?_toVartype (h : m.WellFormed) (t : Vartype) (s : PackedState) :
    (m.toVartype t).energyOfState? s = m.energyOfState? s := by
  have hn := h.numVariables_toVartype t
  by_cases hs : s.len = m.numVariables
  · rw [(h.toVartype t).energyOfState?_eq (hs.trans hn.symm), h.energyOfState?_eq hs,
      h.energyAt_toVartype]
  · rw [energyOfState?, energyOfState?, if_neg (hn ▸ hs), if_neg hs]

/-- Conversion keeps the variables, the interacting pairs and the energy of every state, and
converting back restores the model with all its biases and its offset. -/
theorem Reachable.toVartype_keeps_energies_and_inverts [DecidableEq V] (hm : m.Reachable)
    (t : Vartype) :
    (m.toVartype t).vartype = t ∧ (m.toVartype t).labels = m.labels ∧
    (m.toVartype t).interactingPairs = m.interactingPairs ∧
    (∀ s, (m.toVartype t).energyOfState? s = m.energyOfState? s) ∧
    (∀ s : PackedState, s.len = m.numVariables → ∃ e, m.energyOfState? s = some e) ∧
    (m.toVartype t).toVartype m.vartype = m := by
  have hw := hm.wellFormed
  exact ⟨vartype_toVartype m t, hw.labels_toVartype t, hw.interactingPairs_toVartype t,
    hw.energyOfState?_toVartype t, fun s hs => ⟨m.energyAt s, hw.energyOfState?_eq hs⟩,
    hw.toVartype_toVartype t⟩

theorem toSpin_three_bits :
    let m : Model Nat ℝ := (((((empty .binary).addVariable 0 1).addVariable 1 (-3)).couple 0 1
      2).couple 1 2 (-3 / 2)).addOffset (1 / 4)
    m.Reachable ∧ (PackedState.ofBits [true, true, false]).len = m.numVariables ∧
      (m.toVartype .spin).interactingPairs = [(0, 1), (1, 2)] ∧
      (∃ e, m.energyOfState? (.ofBits [true, true, false]) = some e ∧
        (m.toVartype .spin).energyOfState? (.ofBits [true, true, false]) = some e) ∧
      (m.toVartype .spin).toVartype .binary = m := by
  intro m
  have hm : m.Reachable :=
    .addOffset _ (.addInteraction (.addInteraction (.addVariable 1 (-3) (.addVariable 0 1
      (.empty .binary))) (u := 0) (v := 1) (b := 2) rfl) (u := 1) (v := 2) (b := -3 / 2) rfl)
  obtain ⟨-, -, hpairs, hsame, henergy, hback⟩ := hm.toVartype_keeps_energies_and_inverts .spin
  have hlen : (PackedState.ofBits [true, true, false]).len = m.numVariables := rfl
  obtain ⟨e, he⟩ := henergy _ hlen
  exact ⟨hm, hlen, hpairs.trans rfl, ⟨e, he, (hsame _).trans he⟩, hback⟩

end BinaryQuadratic.Model

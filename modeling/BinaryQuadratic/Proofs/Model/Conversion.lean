import BinaryQuadratic.Proofs.Model.Polynomial

/-! Converting a model to the other domain substitutes an affine function of the values into its
polynomial, so that every state keeps its energy. -/

namespace BinaryQuadratic.Model

open Finset Coefficient

variable {V α : Type} [Exact α] {m : Model V α}

theorem sum_biases (m : Model V α) (f : α → α) :
    (m.biases.map f).sum = ∑ i ∈ range m.numVariables, f (m.bias i) := by
  rw [sum_map_eq_range, length_biases]
  rfl

theorem WellFormed.sum_interactions (h : m.WellFormed) {f : Nat → Nat → α → α}
    (hf : ∀ i j, f i j 0 = 0) :
    (m.interactions.map fun e => f e.1 e.2.1 e.2.2).sum =
      ∑ i ∈ range m.numVariables, ∑ j ∈ range m.numVariables,
        if i < j then f i j (m.weight i j) else 0 := by
  rw [h.sum_map_interactions f]
  refine Finset.sum_congr rfl fun i _ => Finset.sum_congr rfl fun j _ => ?_
  rw [weight]
  cases m.weight? i j <;> simp [hf]

section Rebias

variable {t : Vartype} {f : α → α → α} {k c : α}

theorem WellFormed.numVariables_rebias (h : m.WellFormed) :
    (m.rebias t f k c).numVariables = m.numVariables := by
  rw [← length_labels, h.labels_rebias, length_labels]

theorem weight_rebias (m : Model V α) (i j : Nat) :
    (m.rebias t f k c).weight i j = m.weight i j * k := by
  rw [weight, weight?_map_values (m := m) (f := fun b => b * k) rfl, weight]
  cases m.weight? i j <;> simp

theorem WellFormed.getD_couplingSums (h : m.WellFormed) {i : Nat} (hi : i < m.numVariables) :
    m.couplingSums[i]? = some (∑ j ∈ range m.numVariables, m.weight i j) := by
  have hi' : i < m.adjacency.length := h.length_adjacency ▸ hi
  have hsum := h.sum_row (List.getElem?_eq_getElem hi') (f := fun _ w => w) (by simp)
  rw [couplingSums, List.getElem?_map, List.getElem?_eq_getElem hi', ← hsum]
  simp [OrderedMap.values]

theorem WellFormed.bias_rebias (h : m.WellFormed) {i : Nat} (hi : i < m.numVariables) :
    (m.rebias t f k c).bias i = f (m.bias i) (∑ j ∈ range m.numVariables, m.weight i j) := by
  have hvalues : (m.rebias t f k c).biases = m.biases.zipWith f m.couplingSums :=
    OrderedMap.values_zipWith f m.linear m.couplingSums
  rw [bias, hvalues, List.getD_eq_getElem?_getD, List.getElem?_zipWith, getElem?_biases hi,
    h.getD_couplingSums hi]
  rfl

theorem WellFormed.polynomial_rebias (h : m.WellFormed) (y : Nat → α) :
    (m.rebias t f k c).polynomial y =
      c + ∑ i ∈ range m.numVariables,
          f (m.bias i) (∑ j ∈ range m.numVariables, m.weight i j) * y i +
        k * (∑ i ∈ range m.numVariables, ∑ j ∈ range m.numVariables,
          m.weight i j * y i * y j) / 2 := by
  have hlinear : ∀ i ∈ range m.numVariables, (m.rebias t f k c).bias i * y i =
      f (m.bias i) (∑ j ∈ range m.numVariables, m.weight i j) * y i := fun i hi => by
    rw [h.bias_rebias (Finset.mem_range.1 hi)]
  rw [polynomial, h.numVariables_rebias, Finset.sum_congr rfl hlinear]
  simp only [weight_rebias, Finset.mul_sum]
  congr 2
  refine Finset.sum_congr rfl fun i _ => Finset.sum_congr rfl fun j _ => ?_
  ring

end Rebias

theorem WellFormed.sum_weight_mul (h : m.WellFormed) (y : Nat → α) :
    ∑ i ∈ range m.numVariables, ∑ j ∈ range m.numVariables, m.weight i j * y j =
      ∑ i ∈ range m.numVariables, (∑ j ∈ range m.numVariables, m.weight i j) * y i := by
  rw [Finset.sum_comm]
  refine Finset.sum_congr rfl fun i _ => ?_
  rw [Finset.sum_mul]
  exact Finset.sum_congr rfl fun j _ => by rw [h.weight_comm]

theorem WellFormed.sum_weight_affine (h : m.WellFormed) (p q : α) (y : Nat → α) :
    ∑ i ∈ range m.numVariables, ∑ j ∈ range m.numVariables,
      m.weight i j * (p * y i + q) * (p * y j + q) =
      p * p * ∑ i ∈ range m.numVariables, ∑ j ∈ range m.numVariables, m.weight i j * y i * y j +
        2 * (p * q) * ∑ i ∈ range m.numVariables,
          (∑ j ∈ range m.numVariables, m.weight i j) * y i +
        q * q * ∑ i ∈ range m.numVariables, ∑ j ∈ range m.numVariables, m.weight i j := by
  -- products of two values, of a value and the shift, and of two shifts are summed apart
  have hexpand : ∀ i j, m.weight i j * (p * y i + q) * (p * y j + q) =
      p * p * (m.weight i j * y i * y j) + p * q * (m.weight i j * y i) +
        p * q * (m.weight i j * y j) + q * q * m.weight i j := fun i j => by ring
  simp only [hexpand, Finset.sum_add_distrib, ← Finset.mul_sum, h.sum_weight_mul, ← Finset.sum_mul]
  ring

/-- An affine function of the values is absorbed by the coefficients. -/
theorem WellFormed.polynomial_affine (h : m.WellFormed) (p q : α) (y : Nat → α) :
    m.polynomial (fun i => p * y i + q) =
      m.offset + q * ∑ i ∈ range m.numVariables, m.bias i +
          q * q * (∑ i ∈ range m.numVariables, ∑ j ∈ range m.numVariables, m.weight i j) / 2 +
        ∑ i ∈ range m.numVariables,
          (p * m.bias i + p * q * ∑ j ∈ range m.numVariables, m.weight i j) * y i +
        p * p * (∑ i ∈ range m.numVariables, ∑ j ∈ range m.numVariables,
          m.weight i j * y i * y j) / 2 := by
  have hlinear : ∑ i ∈ range m.numVariables, m.bias i * (p * y i + q) =
      p * ∑ i ∈ range m.numVariables, m.bias i * y i +
        q * ∑ i ∈ range m.numVariables, m.bias i := by
    rw [Finset.mul_sum, Finset.mul_sum, ← Finset.sum_add_distrib]
    exact Finset.sum_congr rfl fun i _ => by ring
  have hsplit : ∑ i ∈ range m.numVariables,
      (p * m.bias i + p * q * ∑ j ∈ range m.numVariables, m.weight i j) * y i =
      p * ∑ i ∈ range m.numVariables, m.bias i * y i +
        p * q * ∑ i ∈ range m.numVariables,
          (∑ j ∈ range m.numVariables, m.weight i j) * y i := by
    rw [Finset.mul_sum, Finset.mul_sum, ← Finset.sum_add_distrib]
    exact Finset.sum_congr rfl fun i _ => by ring
  rw [polynomial, hlinear, h.sum_weight_affine, hsplit]
  ring

section Domains

theorem WellFormed.sum_weights (h : m.WellFormed) (f : α → α) (hf : f 0 = 0) :
    (m.interactions.map fun e => f e.2.2).sum =
      (∑ i ∈ range m.numVariables, ∑ j ∈ range m.numVariables, f (m.weight i j)) / 2 := by
  rw [h.sum_interactions (f := fun _ _ w => f w) fun _ _ => hf]
  exact sum_above_diagonal (fun i j => by rw [h.weight_comm]) (fun i => by rw [h.weight_self, hf]) _

theorem WellFormed.polynomial_toSpin (h : m.WellFormed) (y : Nat → α) :
    m.toSpin.polynomial y = m.polynomial fun i => 1 / 2 * y i + 1 / 2 := by
  have hpairs := h.sum_weights (fun w => w / 4) (by simp)
  have hlinear := m.sum_biases fun a => a / 2
  have hbias : ∀ i, m.bias i / 2 + (∑ j ∈ range m.numVariables, m.weight i j) / 4 =
      1 / 2 * m.bias i + 1 / 2 * (1 / 2) * ∑ j ∈ range m.numVariables, m.weight i j :=
    fun i => by ring
  rw [toSpin, h.polynomial_rebias, h.polynomial_affine]
  simp only [foldl_add, Nat.cast_ofNat, Nat.cast_one, hpairs, hlinear, hbias,
    ← Finset.sum_div]
  ring

theorem WellFormed.polynomial_toBinary (h : m.WellFormed) (y : Nat → α) :
    m.toBinary.polynomial y = m.polynomial fun i => 2 * y i + -1 := by
  have hpairs := h.sum_weights (fun w => w) rfl
  have hlinear := m.sum_biases fun a => -a
  have hbias : ∀ i, 2 * m.bias i - 2 * ∑ j ∈ range m.numVariables, m.weight i j =
      2 * m.bias i + 2 * -1 * ∑ j ∈ range m.numVariables, m.weight i j := fun i => by ring
  rw [toBinary, h.polynomial_rebias, h.polynomial_affine]
  simp only [sub_eq_add_neg, foldl_add, Nat.cast_ofNat, hpairs, hlinear] at hbias ⊢
  simp only [hbias, Finset.sum_neg_distrib]
  ring

theorem spin_coordinate (s : PackedState) (i : Nat) :
    s.coordinate .spin i = 2 * s.coordinate .binary i + (-1 : α) := by
  rw [PackedState.coordinate, PackedState.coordinate]
  cases s.bit i <;> norm_num [Vartype.value]

theorem binary_coordinate (s : PackedState) (i : Nat) :
    s.coordinate .binary i = 1 / 2 * s.coordinate .spin i + (1 / 2 : α) := by
  rw [spin_coordinate]
  ring

theorem WellFormed.energyAt_toVartype (h : m.WellFormed) (t : Vartype) (s : PackedState) :
    (m.toVartype t).energyAt s = m.energyAt s := by
  rw [energyAt, vartype_toVartype, energyAt]
  cases hm : m.vartype with
  | binary =>
    cases t with
    | binary => simp only [Model.toVartype, hm]
    | spin =>
      simp only [Model.toVartype, hm, h.polynomial_toSpin, ← binary_coordinate]
  | spin =>
    cases t with
    | binary =>
      simp only [Model.toVartype, hm, h.polynomial_toBinary, ← spin_coordinate]
    | spin => simp only [Model.toVartype, hm]

end Domains

end BinaryQuadratic.Model

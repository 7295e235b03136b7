import BinaryQuadratic.Proofs.Model.Polynomial
import BinaryQuadratic.Annealing.Schedule

/-! The automatic range goes by the largest field and the smallest bias. No variable is in a field
larger than the largest one, whatever the state, and the smallest bias is at most that large. So there
is a range if any bias is not zero. -/

namespace BinaryQuadratic

open Coefficient Finset

variable {V α : Type} [Exact α] {m : Model V α}

namespace Model

def coefficients (m : Model V α) : List α := m.biases ++ m.interactions.map fun e => e.2.2

omit [Exact α] in
theorem mem_zip_of_mem_coefficients (hm : m.WellFormed) {b : α} (hb : b ∈ m.coefficients) :
    ∃ e ∈ m.biases.zip m.adjacency, b = e.1 ∨ b ∈ e.2.values := by
  have hzip : ∀ {i a row}, m.biases[i]? = some a → m.adjacency[i]? = some row →
      (a, row) ∈ m.biases.zip m.adjacency := fun ha hrow =>
    List.mem_of_getElem? (List.getElem?_zip_eq_some.2 ⟨ha, hrow⟩)
  have hlen : m.adjacency.length = m.biases.length := by
    rw [hm.length_adjacency, length_biases]
  rcases List.mem_append.1 hb with hb | hb
  · obtain ⟨i, hi, rfl⟩ := List.mem_iff_getElem.1 hb
    exact ⟨_, hzip (List.getElem?_eq_getElem hi) (List.getElem?_eq_getElem (hlen ▸ hi)), .inl rfl⟩
  · obtain ⟨⟨i, j, b⟩, he, rfl⟩ := List.mem_map.1 hb
    obtain ⟨row, hrow, hmem⟩ := weight?_eq_some_iff.1 (mem_interactions_iff.1 he).2
    have hi : i < m.biases.length := hlen ▸ (List.getElem?_eq_some_iff.1 hrow).1
    exact ⟨_, hzip (List.getElem?_eq_getElem hi) hrow, .inr (List.mem_map_of_mem hmem)⟩

omit [Exact α] in
theorem mem_coefficients_of_mem_row (hm : m.WellFormed) {row : OrderedMap Nat α}
    (hrow : row ∈ m.adjacency) {w : α} (hw : w ∈ row.values) : w ∈ m.coefficients := by
  have hpair : ∀ {i j}, i < j → m.weight? i j = some w → w ∈ m.coefficients := fun hij h =>
    List.mem_append_right _ (List.mem_map.2 ⟨_, mem_interactions_iff.2 ⟨hij, h⟩, rfl⟩)
  obtain ⟨i, hi, rfl⟩ := List.mem_iff_getElem.1 hrow
  obtain ⟨⟨j, w⟩, he, rfl⟩ := List.mem_map.1 hw
  have hweight : m.weight? i j = some w :=
    weight?_eq_some_iff.2 ⟨_, List.getElem?_eq_getElem hi, he⟩
  rcases lt_trichotomy i j with hij | rfl | hji
  · exact hpair hij hweight
  · rw [hm.irreflexive] at hweight
    cases hweight
  · exact hpair hji (hm.symmetric i j ▸ hweight)

section Coefficients

variable {p : α → Prop} (hzero : p 0) (h : ∀ b ∈ m.coefficients, p b)

include hzero h

theorem bias_of_coefficients (i : Nat) : p (m.bias i) := by
  rw [bias, List.getD_eq_getElem?_getD]
  cases hb : m.biases[i]? with
  | none => exact hzero
  | some b => exact h b (List.mem_append_left _ (List.mem_of_getElem? hb))

theorem weight_of_coefficients (hm : m.WellFormed) (i j : Nat) : p (m.weight i j) := by
  rw [weight]
  cases hw : m.weight? i j with
  | none => exact hzero
  | some b =>
    obtain ⟨row, hrow, hmem⟩ := weight?_eq_some_iff.1 hw
    exact h _ (mem_coefficients_of_mem_row hm (List.mem_of_getElem? hrow) (List.mem_map_of_mem hmem))

end Coefficients

theorem energyAt_eq_offset (hm : m.WellFormed) (h : ∀ b ∈ m.coefficients, b = 0)
    (s : PackedState) : m.energyAt s = m.offset := by
  have hbias : ∀ i, m.bias i = 0 := bias_of_coefficients (p := (· = 0)) rfl h
  have hweight : ∀ i j, m.weight i j = 0 := weight_of_coefficients (p := (· = 0)) rfl h hm
  simp [energyAt, polynomial, hbias, hweight]

end Model

namespace Annealing

section Fields

omit [Exact α] in
theorem maxField_eq [Coefficient α] (m : Model V α) : maxField m = ((m.biases.zip m.adjacency).map fun e =>
    magnitude e.1 + sum (e.2.values.map magnitude)).foldl maxNum 0 := by
  rw [List.foldl_map]
  rfl

theorem magnitude_le_maxField (hm : m.WellFormed) {b : α} (hb : b ∈ m.coefficients) :
    magnitude b ≤ maxField m := by
  obtain ⟨e, he, hb⟩ := m.mem_zip_of_mem_coefficients hm hb
  have hnonneg : ∀ x ∈ e.2.values.map magnitude, (0 : α) ≤ x := by
    intro x hx
    obtain ⟨w, -, rfl⟩ := List.mem_map.1 hx
    exact abs_nonneg w
  have hfield : magnitude b ≤ magnitude e.1 + sum (e.2.values.map magnitude) := by
    rw [sum_eq]
    rcases hb with rfl | hb
    · exact le_add_of_nonneg_right (List.sum_nonneg hnonneg)
    · exact (List.single_le_sum hnonneg _ (List.mem_map_of_mem hb)).trans
        (le_add_of_nonneg_left (abs_nonneg e.1))
  rw [maxField_eq]
  exact hfield.trans ((foldl_maxNum _ 0).2 _ (List.mem_map_of_mem he))

variable {y : Nat → α} {i : Nat}

theorem abs_field_le_maxField (hm : m.WellFormed) (hy : ∀ j < m.numVariables, |y j| ≤ 1)
    (hi : i < m.numVariables) : |m.field y i| ≤ maxField m := by
  obtain ⟨row, hrow⟩ : ∃ row, m.adjacency[i]? = some row :=
    ⟨_, List.getElem?_eq_getElem (hm.length_adjacency ▸ hi)⟩
  have hmem : (m.bias i, row) ∈ m.biases.zip m.adjacency :=
    List.mem_of_getElem? (List.getElem?_zip_eq_some.2 ⟨m.getElem?_biases hi, hrow⟩)
  have hsum : sum (row.values.map magnitude) = ∑ j ∈ range m.numVariables, |m.weight i j| := by
    rw [sum_eq, ← hm.sum_row hrow (f := fun _ w => |w|) (fun _ => abs_zero), OrderedMap.values,
      List.map_map]
    rfl
  calc |m.field y i|
      ≤ |m.bias i| + ∑ j ∈ range m.numVariables, |m.weight i j * y j| :=
        (abs_add_le _ _).trans (add_le_add_right (abs_sum_le_sum_abs _ _) _)
    _ ≤ |m.bias i| + ∑ j ∈ range m.numVariables, |m.weight i j| := by
        refine add_le_add_right (sum_le_sum fun j hj => ?_) _
        rw [abs_mul]
        exact mul_le_of_le_one_right (abs_nonneg _) (hy j (Finset.mem_range.1 hj))
    _ = magnitude (m.bias i) + sum (row.values.map magnitude) := by rw [hsum]; rfl
    _ ≤ maxField m := by
        rw [maxField_eq]
        exact (foldl_maxNum _ 0).2 _ (List.mem_map_of_mem hmem)

end Fields

section Smallest

structure IsSmallest (m : Model V α) (b : α) : Prop where
  pos : 0 < b
  mem : ∃ x ∈ m.coefficients, |x| = b
  le : ∀ x ∈ m.coefficients, x ≠ 0 → b ≤ |x|

theorem mem_sizes {b : α} : b ∈ (m.coefficients.map magnitude).filter (fun b => 0 < b) ↔
    ∃ x ∈ m.coefficients, x ≠ 0 ∧ |x| = b := by
  simp only [List.mem_filter, List.mem_map, decide_eq_true_eq]
  constructor
  · rintro ⟨⟨x, hx, rfl⟩, hpos⟩
    exact ⟨x, hx, abs_pos.1 hpos, rfl⟩
  · rintro ⟨x, hx, hne, rfl⟩
    exact ⟨⟨x, hx, rfl⟩, abs_pos.2 hne⟩

theorem minBias?_eq_none_iff : minBias? m = none ↔ ∀ b ∈ m.coefficients, b = 0 := by
  change least? ((m.coefficients.map magnitude).filter fun b => 0 < b) = none ↔ _
  simp only [least?_eq_none_iff, List.eq_nil_iff_forall_not_mem, mem_sizes]
  constructor
  · intro h x hx
    by_contra hne
    exact h |x| ⟨x, hx, hne, rfl⟩
  · rintro h _ ⟨x, hx, hne, -⟩
    exact hne (h x hx)

theorem IsSmallest.unique {b b' : α} (h : IsSmallest m b) (h' : IsSmallest m b') : b = b' := by
  have hle : ∀ {c c' : α}, IsSmallest m c → IsSmallest m c' → c ≤ c' := by
    intro c c' hc hc'
    obtain ⟨x, hx, rfl⟩ := hc'.mem
    exact hc.le x hx (abs_pos.1 hc'.pos)
  exact le_antisymm (hle h h') (hle h' h)

theorem minBias?_eq_some_iff {b : α} : minBias? m = some b ↔ IsSmallest m b := by
  have hforward : ∀ {b}, minBias? m = some b → IsSmallest m b := by
    intro b h
    change least? ((m.coefficients.map magnitude).filter fun b => 0 < b) = some b at h
    have hne : (m.coefficients.map magnitude).filter (fun b => 0 < b) ≠ [] := by
      intro hnil
      rw [hnil] at h
      cases h
    obtain ⟨b', hb', hmem, hle⟩ := exists_least? hne
    obtain rfl : b = b' := Option.some.inj (h.symm.trans hb')
    obtain ⟨x, hx, hxne, rfl⟩ := mem_sizes.1 hmem
    exact ⟨abs_pos.2 hxne, ⟨x, hx, rfl⟩, fun y hy hyne => hle _ (mem_sizes.2 ⟨y, hy, hyne, rfl⟩)⟩
  refine ⟨hforward, fun h => ?_⟩
  cases hmin : minBias? m with
  | none =>
    obtain ⟨x, hx, hxb⟩ := h.mem
    rw [← hxb, minBias?_eq_none_iff.1 hmin x hx] at h
    exact absurd h.pos (by simp)
  | some b' => rw [(hforward hmin).unique h]

theorem IsSmallest.le_maxField {b : α} (h : IsSmallest m b) (hm : m.WellFormed) :
    b ≤ maxField m := by
  obtain ⟨x, hx, rfl⟩ := h.mem
  exact magnitude_le_maxField hm hx

theorem defaultRange?_eq (hm : m.WellFormed) : defaultRange? m =
    (minBias? m).map fun smallest => (log (ofNat 2) / (ofNat m.vartype.width * maxField m),
      log (ofNat 100) / (ofNat m.vartype.width * smallest)) := by
  rw [defaultRange?]
  cases h : minBias? m with
  | none => rfl
  | some b =>
    have hb := minBias?_eq_some_iff.1 h
    exact if_pos ⟨hb.pos.trans_le (hb.le_maxField hm), isFinite_eq b⟩

theorem defaultRange?_eq_none_iff (hm : m.WellFormed) :
    defaultRange? m = none ↔ ∀ b ∈ m.coefficients, b = 0 := by
  rw [defaultRange?_eq hm, Option.map_eq_none_iff, minBias?_eq_none_iff]

end Smallest

end Annealing

end BinaryQuadratic

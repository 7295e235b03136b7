import BinaryQuadratic.Proofs.Coefficient.Exact
import BinaryQuadratic.Proofs.Model.Interactions
import BinaryQuadratic.Proofs.PackedState
import BinaryQuadratic.Model.Energy

/-! With exact coefficients the energy of a state is the value of a quadratic polynomial, and
flipping a bit changes it by the step times the local field of the flipped variable. -/

namespace BinaryQuadratic.Model

open Finset Coefficient

variable {V α : Type}

section Definitions

variable [Exact α]

def bias (m : Model V α) (i : Nat) : α := m.biases.getD i 0

def weight (m : Model V α) (i j : Nat) : α := (m.weight? i j).getD 0

def field (m : Model V α) (y : Nat → α) (i : Nat) : α :=
  m.bias i + ∑ j ∈ range m.numVariables, m.weight i j * y j

/-- Each pair is met at both of its ends, so that half of the double sum is meant. -/
def polynomial (m : Model V α) (y : Nat → α) : α :=
  m.offset + ∑ i ∈ range m.numVariables, m.bias i * y i +
    (∑ i ∈ range m.numVariables, ∑ j ∈ range m.numVariables, m.weight i j * y i * y j) / 2

end Definitions

variable [Exact α] {m : Model V α}

theorem bias_eq_zero {i : Nat} (h : m.numVariables ≤ i) : m.bias i = 0 := by
  rw [bias, List.getD_eq_default]
  simpa using h

theorem getElem?_biases {i : Nat} (hi : i < m.numVariables) : m.biases[i]? = some (m.bias i) := by
  rw [bias, List.getD_eq_getElem?_getD, List.getElem?_eq_getElem (by simpa using hi),
    Option.getD_some]

theorem polynomial_congr {y z : Nat → α} (h : ∀ i < m.numVariables, y i = z i) :
    m.polynomial y = m.polynomial z := by
  have hb : ∀ i ∈ range m.numVariables, m.bias i * y i = m.bias i * z i := fun i hi => by
    rw [h i (Finset.mem_range.1 hi)]
  have hw : ∀ i ∈ range m.numVariables, ∑ j ∈ range m.numVariables, m.weight i j * y i * y j =
      ∑ j ∈ range m.numVariables, m.weight i j * z i * z j := fun i hi =>
    Finset.sum_congr rfl fun j hj => by
      rw [h i (Finset.mem_range.1 hi), h j (Finset.mem_range.1 hj)]
  rw [polynomial, polynomial, Finset.sum_congr rfl hb, Finset.sum_congr rfl hw]

namespace WellFormed

theorem weight_comm (h : m.WellFormed) (i j : Nat) : m.weight i j = m.weight j i := by
  rw [weight, weight, h.symmetric]

theorem weight_self (h : m.WellFormed) (i : Nat) : m.weight i i = 0 := by
  rw [weight, h.irreflexive, Option.getD_none]

theorem weight_eq_zero (h : m.WellFormed) {i : Nat} (hi : m.numVariables ≤ i) (j : Nat) :
    m.weight i j = 0 := by
  rw [weight, h.weight?_of_le hi, Option.getD_none]

theorem sum_row (h : m.WellFormed) {i : Nat} {row : OrderedMap Nat α}
    (hrow : m.adjacency[i]? = some row) {f : Nat → α → α} (hf : ∀ j, f j 0 = 0) :
    (row.entries.map fun e => f e.1 e.2).sum =
      ∑ j ∈ range m.numVariables, f j (m.weight i j) := by
  rw [h.sum_map_row hrow f]
  refine Finset.sum_congr rfl fun j _ => ?_
  rw [weight]
  cases m.weight? i j <;> simp [hf]

/-- Changing one value changes the polynomial by the step times the field. -/
theorem polynomial_update (h : m.WellFormed) {i : Nat} (hi : i < m.numVariables) (y : Nat → α)
    (z : α) :
    m.polynomial (Function.update y i z) - m.polynomial y = (z - y i) * m.field y i := by
  rw [polynomial, polynomial, field, sum_mul_update hi, sum_sum_mul_update hi y z h.weight_comm
    h.weight_self]
  ring

end WellFormed

section Evaluation

theorem addRowEnergy_eq {x : Array α} (i : Nat) (xi : α) {row : List (Nat × α)}
    (h : ∀ p ∈ row, p.1 < x.size) (e : α) :
    addRowEnergy x i xi row e =
      some (e + (row.map fun p => if i < p.1 then p.2 * xi * x.getD p.1 0 else 0).sum) := by
  induction row generalizing e with
  | nil => simp [addRowEnergy]
  | cons p row ih =>
    obtain ⟨j, w⟩ := p
    have hj : j < x.size := h (j, w) (by simp)
    have hrow := ih fun p hp => h p (List.mem_cons_of_mem _ hp)
    rw [addRowEnergy, List.map_cons, List.sum_cons]
    by_cases hij : i < j
    · simp [hij, hrow, hj, add_assoc]
    · simp [hij, hrow]

theorem addEnergyFrom_eq {x : Array α} {f : Nat → α} {rows : List (α × OrderedMap Nat α)}
    (i : Nat) (hi : i + rows.length ≤ x.size)
    (hrows : ∀ k p, rows[k]? = some p → (∀ j ∈ p.2.keys, j < x.size) ∧
      p.1 * x.getD (i + k) 0 + (p.2.entries.map fun q =>
        if i + k < q.1 then q.2 * x.getD (i + k) 0 * x.getD q.1 0 else 0).sum = f (i + k))
    (e : α) :
    addEnergyFrom x i rows e = some (e + ∑ k ∈ range rows.length, f (i + k)) := by
  induction rows generalizing i e with
  | nil => simp [addEnergyFrom]
  | cons p rows ih =>
    obtain ⟨b, row⟩ := p
    rw [List.length_cons] at hi
    have hlt : i < x.size := by omega
    obtain ⟨hkeys, hterm⟩ := hrows 0 (b, row) rfl
    have hrest := ih (i + 1) (by omega) fun k p hp => by
      have := hrows (k + 1) p hp
      rwa [show i + (k + 1) = i + 1 + k by omega] at this
    have hentries : ∀ q ∈ row.entries, q.1 < x.size := fun q hq =>
      hkeys q.1 (List.mem_map_of_mem hq)
    have hget : x[i]? = some (x.getD i 0) := by simp [hlt]
    simp only [addEnergyFrom, hget, addRowEnergy_eq i _ hentries, hrest, List.length_cons,
      Finset.sum_range_succ', Nat.add_zero]
    simp only [Nat.add_zero] at hterm
    rw [← hterm]
    simp only [show ∀ k, i + 1 + k = i + (k + 1) by omega]
    congr 1
    ring

theorem WellFormed.energyOfValues?_eq (h : m.WellFormed) {x : Array α}
    (hx : x.size = m.numVariables) :
    m.energyOfValues? x = some (m.polynomial fun i => x.getD i 0) := by
  have hlen : (m.biases.zip m.adjacency).length = m.numVariables := by
    simp [h.length_adjacency]
  let f : Nat → α := fun i => m.bias i * x.getD i 0 +
    ∑ j ∈ range m.numVariables, if i < j then m.weight i j * x.getD i 0 * x.getD j 0 else 0
  have hrows : ∀ k p, (m.biases.zip m.adjacency)[k]? = some p → (∀ j ∈ p.2.keys, j < x.size) ∧
      p.1 * x.getD (0 + k) 0 + (p.2.entries.map fun q =>
        if 0 + k < q.1 then q.2 * x.getD (0 + k) 0 * x.getD q.1 0 else 0).sum = f (0 + k) := by
    rintro k ⟨b, row⟩ hk
    obtain ⟨hb, hrow⟩ := List.getElem?_zip_eq_some.1 hk
    refine ⟨fun j hj => hx ▸ (h.mem_keys hrow hj).1, ?_⟩
    rw [Nat.zero_add, h.sum_row hrow (f := fun j w => if k < j then
      w * x.getD k 0 * x.getD j 0 else 0) (by simp)]
    simp [f, bias, List.getD_eq_getElem?_getD, hb]
  rw [energyOfValues?, addEnergyFrom_eq 0 (by omega) hrows, hlen]
  simp only [f, Nat.zero_add, Finset.sum_add_distrib]
  -- each pair is met once in the rows and twice in the polynomial, which halves it
  rw [sum_above_diagonal (fun i j => by rw [h.weight_comm]; ring)
    (fun i => by simp [h.weight_self]), polynomial, add_assoc]

end Evaluation

end BinaryQuadratic.Model

namespace BinaryQuadratic

open Coefficient

def PackedState.coordinate {α : Type} [Exact α] (s : PackedState) (t : Vartype) (i : Nat) : α :=
  ((t.value (s.bit i) : Int) : α)

namespace Model

variable {V α : Type} [Exact α] {m : Model V α}

def energyAt (m : Model V α) (s : PackedState) : α := m.polynomial (s.coordinate m.vartype)

theorem WellFormed.energyOfState?_eq (h : m.WellFormed) {s : PackedState}
    (hs : s.len = m.numVariables) : m.energyOfState? s = some (m.energyAt s) := by
  rw [energyOfState?, if_pos hs, h.energyOfValues?_eq (by simp [coordinates_eq, hs]), energyAt]
  congr 1
  refine polynomial_congr fun i hi => ?_
  have hi' : i < s.len := hs ▸ hi
  simp [coordinates_eq, PackedState.bits, PackedState.coordinate, hi']

theorem coordinate_toggle {s : PackedState} (hs : s.Fits) {i : Nat} (hi : i < s.len)
    (t : Vartype) : ((s.toggle i).coordinate t : Nat → α) =
      Function.update (s.coordinate t) i ((t.value (!s.bit i) : Int) : α) := by
  funext j
  rw [PackedState.coordinate, PackedState.bit_toggle (hs.div_lt hi)]
  by_cases hj : j = i
  · subst hj
    simp
  · simp [hj, PackedState.coordinate]

theorem WellFormed.energyAt_toggle (h : m.WellFormed) {s : PackedState} (hs : s.Fits)
    (hlen : s.len = m.numVariables) {i : Nat} (hi : i < m.numVariables) :
    m.energyAt (s.toggle i) - m.energyAt s =
      (((m.vartype.value (!s.bit i) : Int) : α) - s.coordinate m.vartype i) *
        m.field (s.coordinate m.vartype) i := by
  rw [energyAt, energyAt, coordinate_toggle hs (hlen ▸ hi), h.polynomial_update hi]

end Model

end BinaryQuadratic

import Mathlib.Algebra.GroupWithZero.Nat
import BinaryQuadratic.Proofs.Model.WellFormed
import BinaryQuadratic.Proofs.Sums

/-! A pair is stored at both of its ends and listed once. The list of interactions holds exactly the
pairs that have a bias, the earlier position first, and half of all stored entries. -/

namespace BinaryQuadratic.Model

open Finset

variable {V α : Type} {m : Model V α}

def interactingPairs (m : Model V α) : List (V × V) := m.quadraticTerms.map fun e => (e.1, e.2.1)

section Rows

theorem interactionsFrom_map (f : α → α) (i : Nat) (rows : List (OrderedMap Nat α)) :
    interactionsFrom i (rows.map (OrderedMap.map f)) =
      (interactionsFrom i rows).map fun e => (e.1, e.2.1, f e.2.2) := by
  induction rows generalizing i with
  | nil => rfl
  | cons row rows ih =>
    rw [List.map_cons, interactionsFrom, interactionsFrom, ih, List.map_append, OrderedMap.map,
      List.filter_map, List.map_map, List.map_map]
    rfl

theorem mem_interactionsFrom {i : Nat} {rows : List (OrderedMap Nat α)} {e : Nat × Nat × α} :
    e ∈ interactionsFrom i rows ↔
      e.1 < e.2.1 ∧ ∃ k row, rows[k]? = some row ∧ e.1 = i + k ∧ e.2 ∈ row.entries := by
  induction rows generalizing i with
  | nil => simp [interactionsFrom]
  | cons row rows ih =>
    obtain ⟨a, b, w⟩ := e
    rw [interactionsFrom, List.mem_append, ih]
    constructor
    · rintro (h | ⟨hlt, k, row', hrow, ha, hmem⟩)
      · obtain ⟨p, hp, he⟩ := List.mem_map.1 h
        obtain ⟨hmem, hlt⟩ := List.mem_filter.1 hp
        obtain ⟨rfl, rfl, rfl⟩ := by simpa using he
        exact ⟨by simpa using hlt, 0, row, rfl, rfl, hmem⟩
      · exact ⟨hlt, k + 1, row', hrow, by simp only at ha ⊢; omega, hmem⟩
    · rintro ⟨hlt, k, row', hrow, ha, hmem⟩
      cases k with
      | zero =>
        obtain rfl := Option.some.inj hrow
        obtain rfl : a = i := ha
        exact .inl (List.mem_map.2 ⟨(b, w), List.mem_filter.2 ⟨hmem, by simpa using hlt⟩, rfl⟩)
      | succ k => exact .inr ⟨hlt, k, row', hrow, by simp only at ha ⊢; omega, hmem⟩

theorem nodup_interactionsFrom (i : Nat) (rows : List (OrderedMap Nat α)) :
    ((interactionsFrom i rows).map fun e => (e.1, e.2.1)).Nodup := by
  induction rows generalizing i with
  | nil => exact List.nodup_nil
  | cons row rows ih =>
    have hrow : ((row.entries.filter fun e => i < e.1).map fun e => (i, e.1)).Nodup := by
      have hkeys := row.nodup.sublist (List.filter_sublist.map Prod.fst : List.Sublist
        ((row.entries.filter fun e => i < e.1).map Prod.fst) (row.entries.map Prod.fst))
      simpa [Function.comp_def] using hkeys.map (f := fun j => (i, j)) fun j k h =>
        (Prod.mk.inj h).2
    rw [interactionsFrom, List.map_append, List.map_map]
    refine hrow.append (ih (i + 1)) ?_
    -- later rows have later first positions
    intro p hp hp'
    obtain ⟨e, -, rfl⟩ := List.mem_map.1 hp
    obtain ⟨e', he', heq⟩ := List.mem_map.1 hp'
    obtain ⟨-, k, -, -, hk, -⟩ := mem_interactionsFrom.1 he'
    have hfirst : e'.1 = i := (Prod.mk.inj heq).1
    omega

theorem sum_interactionsFrom {M : Type} [AddCommMonoid M] {f : Nat → Nat → α → M} {g : Nat → M}
    {rows : List (OrderedMap Nat α)} (i : Nat)
    (h : ∀ k row, rows[k]? = some row →
      (row.entries.map fun e => if i + k < e.1 then f (i + k) e.1 e.2 else 0).sum = g (i + k)) :
    ((interactionsFrom i rows).map fun e => f e.1 e.2.1 e.2.2).sum =
      ∑ k ∈ range rows.length, g (i + k) := by
  induction rows generalizing i with
  | nil => simp [interactionsFrom]
  | cons row rows ih =>
    have hrest := ih (i + 1) fun k row' hk => by
      have := h (k + 1) row' hk
      rwa [show i + (k + 1) = i + 1 + k by omega] at this
    have hrow := h 0 row rfl
    simp only [Nat.add_zero] at hrow
    rw [interactionsFrom, List.map_append, List.sum_append, hrest, List.map_map, List.length_cons,
      Finset.sum_range_succ', show i + 0 = i from rfl, ← hrow, add_comm, sum_map_filter]
    simp only [show ∀ k, i + 1 + k = i + (k + 1) by omega, decide_eq_true_eq, Function.comp_apply]

end Rows

theorem weight?_eq_some_iff {i j : Nat} {b : α} :
    m.weight? i j = some b ↔ ∃ row, m.adjacency[i]? = some row ∧ (j, b) ∈ row.entries := by
  simp only [weight?, Option.bind_eq_some_iff, OrderedMap.find?_eq_some_iff]

theorem mem_interactions_iff {i j : Nat} {b : α} :
    (i, j, b) ∈ m.interactions ↔ i < j ∧ m.weight? i j = some b := by
  simp [interactions, mem_interactionsFrom, weight?_eq_some_iff]

namespace WellFormed

theorem lt_of_weight? (h : m.WellFormed) {i j : Nat} {b : α} (hw : m.weight? i j = some b) :
    i < m.numVariables := by
  by_contra hi
  rw [h.weight?_of_le (Nat.le_of_not_lt hi)] at hw
  cases hw

theorem mem_row_comm (h : m.WellFormed) (i j : Nat) (b : α) :
    (∃ row, m.adjacency[i]? = some row ∧ (j, b) ∈ row.entries) ↔
      ∃ row, m.adjacency[j]? = some row ∧ (i, b) ∈ row.entries := by
  rw [← weight?_eq_some_iff, ← weight?_eq_some_iff, h.symmetric]

theorem sum_map_row {M : Type} [AddCommMonoid M] (h : m.WellFormed) {i : Nat}
    {row : OrderedMap Nat α} (hrow : m.adjacency[i]? = some row) (f : Nat → α → M) :
    (row.entries.map fun e => f e.1 e.2).sum =
      ∑ j ∈ range m.numVariables, (m.weight? i j).elim 0 (f j) := by
  rw [row.sum_entries f fun j hj => Finset.mem_range.2 (h.mem_keys hrow hj).1]
  simp only [weight?, hrow, Option.bind_some]

theorem sum_map_interactions {M : Type} [AddCommMonoid M] (h : m.WellFormed)
    (f : Nat → Nat → α → M) :
    (m.interactions.map fun e => f e.1 e.2.1 e.2.2).sum =
      ∑ i ∈ range m.numVariables, ∑ j ∈ range m.numVariables,
        if i < j then (m.weight? i j).elim 0 (f i j) else 0 := by
  rw [interactions, sum_interactionsFrom (g := fun i => ∑ j ∈ range m.numVariables,
    if i < j then (m.weight? i j).elim 0 (f i j) else 0) 0, h.length_adjacency]
  · simp only [Nat.zero_add]
  · intro k row hrow
    rw [Nat.zero_add, h.sum_map_row hrow fun j w => if k < j then f k j w else 0]
    refine Finset.sum_congr rfl fun j _ => ?_
    cases m.weight? k j <;> simp

theorem sum_row_sizes (h : m.WellFormed) :
    (m.adjacency.map OrderedMap.size).sum =
      ∑ i ∈ range m.numVariables, ∑ j ∈ range m.numVariables,
        (m.weight? i j).elim 0 fun _ => 1 := by
  rw [sum_map_eq_sum_range (a := fun i => ∑ j ∈ range m.numVariables,
    (m.weight? i j).elim 0 fun _ => 1), h.length_adjacency]
  intro i row hrow
  rw [← h.sum_map_row hrow fun _ _ => 1]
  simp [OrderedMap.size]

theorem length_interactions (h : m.WellFormed) :
    m.interactions.length = ∑ i ∈ range m.numVariables, ∑ j ∈ range m.numVariables,
      if i < j then (m.weight? i j).elim 0 fun _ => 1 else 0 := by
  rw [← h.sum_map_interactions fun _ _ _ => 1]
  simp

theorem numInteractions_eq (h : m.WellFormed) : m.numInteractions = m.interactions.length := by
  have hrows : m.adjacency.foldr (fun row n => row.size + n) 0 =
      (m.adjacency.map OrderedMap.size).sum := by
    rw [List.sum_eq_foldr, List.foldr_map]
  rw [numInteractions, hrows, h.sum_row_sizes, sum_sum_eq_add (fun i j => by rw [h.symmetric])
    (fun i => by rw [h.irreflexive]; rfl), h.length_interactions]
  omega

theorem exists_labels (h : m.WellFormed) {e : Nat × Nat × α} (he : e ∈ m.interactions) :
    ∃ u v, m.labelAt? e.1 = some u ∧ m.labelAt? e.2.1 = some v := by
  have hlabel : ∀ i < m.numVariables, ∃ v, m.labelAt? i = some v := fun i hi =>
    ⟨_, List.getElem?_eq_getElem (m.length_labels.symm ▸ hi)⟩
  obtain ⟨i, j, b⟩ := e
  obtain ⟨-, hw⟩ := mem_interactions_iff.1 he
  obtain ⟨u, hu⟩ := hlabel i (h.lt_of_weight? hw)
  obtain ⟨v, hv⟩ := hlabel j (h.lt_of_weight? (h.symmetric i j ▸ hw))
  exact ⟨u, v, hu, hv⟩

theorem length_quadraticTerms (h : m.WellFormed) :
    m.quadraticTerms.length = m.interactions.length := by
  rw [quadraticTerms, List.filterMap_length_eq_length]
  intro e he
  obtain ⟨u, v, hu, hv⟩ := h.exists_labels he
  simp [hu, hv]

end WellFormed

section Labels

theorem mem_quadraticTerms_iff {u v : V} {b : α} :
    (u, v, b) ∈ m.quadraticTerms ↔ ∃ i j, m.labelAt? i = some u ∧ m.labelAt? j = some v ∧
      i < j ∧ m.weight? i j = some b := by
  constructor
  · intro h
    obtain ⟨⟨i, j, b'⟩, he, h⟩ := List.mem_filterMap.1 h
    obtain ⟨u', hu, h⟩ := Option.bind_eq_some_iff.1 h
    obtain ⟨v', hv, h⟩ := Option.bind_eq_some_iff.1 h
    obtain ⟨rfl, rfl, rfl⟩ := by simpa using h
    exact ⟨i, j, hu, hv, mem_interactions_iff.1 he⟩
  · rintro ⟨i, j, hu, hv, h⟩
    exact List.mem_filterMap.2 ⟨(i, j, b), mem_interactions_iff.2 h, by simp [hu, hv]⟩

theorem labelAt?_injective {i j : Nat} {v : V} (hi : m.labelAt? i = some v)
    (hj : m.labelAt? j = some v) : i = j := by
  obtain ⟨hlt, -⟩ := List.getElem?_eq_some_iff.1 hi
  exact (List.getElem?_inj hlt m.nodup_labels).1 (hi.trans hj.symm)

def labelPair? (m : Model V α) (p : Nat × Nat) : Option (V × V) :=
  (m.labelAt? p.1).bind fun u => (m.labelAt? p.2).map fun v => (u, v)

theorem labelPair?_injective {p q : Nat × Nat} {e : V × V} (hp : m.labelPair? p = some e)
    (hq : m.labelPair? q = some e) : p = q := by
  obtain ⟨u, hu, hp⟩ := Option.bind_eq_some_iff.1 hp
  obtain ⟨v, hv, rfl⟩ := Option.map_eq_some_iff.1 hp
  obtain ⟨u', hu', hq⟩ := Option.bind_eq_some_iff.1 hq
  obtain ⟨v', hv', he⟩ := Option.map_eq_some_iff.1 hq
  obtain ⟨rfl, rfl⟩ := Prod.mk.inj he
  exact Prod.ext (labelAt?_injective hu hu') (labelAt?_injective hv hv')

theorem labelPair?_congr {m m' : Model V α} (h : m'.labels = m.labels) :
    m'.labelPair? = m.labelPair? := by
  funext p
  rw [labelPair?, labelAt?_eq, labelAt?_eq, h]
  rfl

theorem interactingPairs_eq (m : Model V α) :
    m.interactingPairs = (m.interactions.map fun e => (e.1, e.2.1)).filterMap m.labelPair? := by
  rw [interactingPairs, quadraticTerms, List.map_filterMap, List.filterMap_map]
  refine List.filterMap_congr fun e _ => ?_
  cases hu : m.labelAt? e.1 <;> cases hv : m.labelAt? e.2.1 <;> simp [labelPair?, hu, hv]

theorem nodup_interactingPairs (m : Model V α) : m.interactingPairs.Nodup := by
  rw [interactingPairs_eq]
  exact (nodup_interactionsFrom 0 m.adjacency).filterMap fun _ _ _ => labelPair?_injective

variable [DecidableEq V]

theorem quadratic?_eq_some_iff {u v : V} {b : α} :
    m.quadratic? u v = some b ↔
      ∃ i j, m.indexOf? u = some i ∧ m.indexOf? v = some j ∧ m.weight? i j = some b := by
  rw [quadratic?]
  cases hu : m.indexOf? u <;> cases hv : m.indexOf? v <;> simp [weight?]

theorem WellFormed.quadratic?_comm (h : m.WellFormed) (u v : V) :
    m.quadratic? u v = m.quadratic? v u := by
  have hsome : ∀ u v b, m.quadratic? u v = some b → m.quadratic? v u = some b := fun u v b hb => by
    obtain ⟨i, j, hu, hv, hw⟩ := quadratic?_eq_some_iff.1 hb
    exact quadratic?_eq_some_iff.2 ⟨j, i, hv, hu, h.symmetric i j ▸ hw⟩
  exact Option.ext fun b => ⟨hsome u v b, hsome v u b⟩

theorem mem_quadraticTerms_iff_quadratic? {u v : V} {b : α} :
    (u, v, b) ∈ m.quadraticTerms ↔ m.quadratic? u v = some b ∧
      ∃ i j, m.indexOf? u = some i ∧ m.indexOf? v = some j ∧ i < j := by
  simp only [mem_quadraticTerms_iff, quadratic?_eq_some_iff, indexOf?_eq_some_iff, labelAt?_eq]
  constructor
  · rintro ⟨i, j, hu, hv, hlt, hw⟩
    exact ⟨⟨i, j, hu, hv, hw⟩, i, j, hu, hv, hlt⟩
  · rintro ⟨⟨i, j, hu, hv, hw⟩, i', j', hu', hv', hlt⟩
    obtain rfl := labelAt?_injective hu hu'
    obtain rfl := labelAt?_injective hv hv'
    exact ⟨i, j, hu, hv, hlt, hw⟩

end Labels

section Conversion

variable [Coefficient α]

theorem WellFormed.interactingPairs_rebias (h : m.WellFormed) (t : Vartype) (f : α → α → α)
    (k c : α) : (m.rebias t f k c).interactingPairs = m.interactingPairs := by
  have hrows : (m.rebias t f k c).interactions =
      m.interactions.map fun e => (e.1, e.2.1, e.2.2 * k) :=
    interactionsFrom_map (· * k) 0 m.adjacency
  rw [interactingPairs_eq, interactingPairs_eq, hrows, List.map_map,
    labelPair?_congr (h.labels_rebias t f k c)]
  rfl

theorem WellFormed.interactingPairs_toVartype (h : m.WellFormed) (t : Vartype) :
    (m.toVartype t).interactingPairs = m.interactingPairs := by
  unfold Model.toVartype
  split
  · exact h.interactingPairs_rebias ..
  · exact h.interactingPairs_rebias ..
  · rfl
  · rfl

end Conversion

end BinaryQuadratic.Model

import BinaryQuadratic.Model.Conversion
import BinaryQuadratic.Proofs.OrderedMap

/-! The shape of a model, whatever its coefficients: each variable has a row, a pair of variables
has the same bias at both ends, and no variable interacts with itself. Every operation keeps it. -/

namespace BinaryQuadratic.Model

variable {V α : Type}

theorem foldl_keeps {M β γ : Type} {step : M → β → M} (f : M → γ)
    (h : ∀ m b, f (step m b) = f m) (l : List β) (m : M) : f (l.foldl step m) = f m := by
  induction l generalizing m with
  | nil => rfl
  | cons b l ih => rw [List.foldl_cons, ih, h]

def weight? (m : Model V α) (i j : Nat) : Option α := m.adjacency[i]?.bind (·.find? j)

structure WellFormed (m : Model V α) : Prop where
  length_adjacency : m.adjacency.length = m.numVariables
  symmetric : ∀ i j, m.weight? i j = m.weight? j i
  irreflexive : ∀ i, m.weight? i i = none

@[simp] theorem length_biases (m : Model V α) : m.biases.length = m.numVariables := by
  simp [biases, numVariables]

@[simp] theorem length_labels (m : Model V α) : m.labels.length = m.numVariables := by
  simp [labels, numVariables]

theorem labelAt?_eq (m : Model V α) (i : Nat) : m.labelAt? i = m.labels[i]? := rfl

theorem nodup_labels (m : Model V α) : m.labels.Nodup := m.linear.nodup

theorem labels_eq_nil_iff (m : Model V α) : m.labels = [] ↔ m.isEmpty = true := by
  simp [labels, OrderedMap.keys, isEmpty]

theorem numVariables_eq_zero {m : Model V α} (h : m.isEmpty = true) : m.numVariables = 0 := by
  rw [← m.length_labels, m.labels_eq_nil_iff.2 h, List.length_nil]

namespace WellFormed

variable {m : Model V α}

theorem weight?_of_le (h : m.WellFormed) {i : Nat} (hi : m.numVariables ≤ i) (j : Nat) :
    m.weight? i j = none := by
  rw [weight?, List.getElem?_eq_none (by rw [h.length_adjacency]; exact hi), Option.bind_none]

theorem mem_keys (h : m.WellFormed) {i j : Nat} {row : OrderedMap Nat α}
    (hrow : m.adjacency[i]? = some row) (hj : j ∈ row.keys) : j < m.numVariables ∧ j ≠ i := by
  have hw : m.weight? i j ≠ none := by
    simpa [weight?, hrow, OrderedMap.find?_eq_none_iff] using hj
  refine ⟨?_, ?_⟩
  · by_contra hlt
    exact hw (by rw [h.symmetric, h.weight?_of_le (Nat.le_of_not_lt hlt)])
  · rintro rfl
    exact hw (h.irreflexive j)

theorem lt_of_mem_keys (h : m.WellFormed) {row : OrderedMap Nat α} (hrow : row ∈ m.adjacency)
    {j : Nat} (hj : j ∈ row.keys) : j < m.numVariables := by
  obtain ⟨i, hi⟩ := List.mem_iff_getElem?.1 hrow
  exact (h.mem_keys hi hj).1

end WellFormed

section Values

variable {m m' : Model V α} {f : α → α}

theorem weight?_map_values (h : m'.adjacency = m.adjacency.map (OrderedMap.map f)) (i j : Nat) :
    m'.weight? i j = (m.weight? i j).map f := by
  rw [weight?, h, List.getElem?_map]
  cases hrow : m.adjacency[i]? <;> simp [weight?, hrow, OrderedMap.find?_map]

theorem WellFormed.map_values (h : m.WellFormed)
    (hn : m'.numVariables = m.numVariables)
    (ha : m'.adjacency = m.adjacency.map (OrderedMap.map f)) : m'.WellFormed := by
  refine ⟨?_, fun i j => ?_, fun i => ?_⟩
  · rw [ha, List.length_map, h.length_adjacency, hn]
  · rw [weight?_map_values ha, weight?_map_values ha, h.symmetric]
  · rw [weight?_map_values ha, h.irreflexive, Option.map_none]

end Values

section Positions

variable [DecidableEq V] {m : Model V α} {u v : V}

theorem indexOf?_eq_some_iff {i : Nat} : m.indexOf? v = some i ↔ m.labels[i]? = some v :=
  OrderedMap.indexOf?_eq_some_iff

theorem indexOf?_eq_none_iff : m.indexOf? v = none ↔ v ∉ m.labels :=
  OrderedMap.indexOf?_eq_none_iff

theorem labels_position (h : v ∈ m.labels) : m.labels[m.position v]? = some v := by
  cases hi : m.indexOf? v with
  | none => exact absurd h (indexOf?_eq_none_iff.1 hi)
  | some i => simpa [position, hi] using indexOf?_eq_some_iff.1 hi

theorem labels_position_of_lt (h : m.position v < m.numVariables) :
    m.labels[m.position v]? = some v := by
  cases hv : m.indexOf? v with
  | some i =>
    rw [position, hv, Option.getD_some]
    exact indexOf?_eq_some_iff.1 hv
  | none =>
    rw [position, hv, Option.getD_none] at h
    exact absurd h (lt_irrefl _)

theorem position_lt (h : v ∈ m.labels) : m.position v < m.numVariables := by
  obtain ⟨hi, -⟩ := List.getElem?_eq_some_iff.1 (labels_position h)
  simpa using hi

theorem position_eq_numVariables_iff : m.position v = m.numVariables ↔ v ∉ m.labels := by
  constructor
  · exact fun h hv => (position_lt hv).ne h
  · intro hv
    rw [position, indexOf?_eq_none_iff.2 hv, Option.getD_none]

theorem position_ne (hu : u ∈ m.labels) (hv : v ∈ m.labels) (h : u ≠ v) :
    m.position u ≠ m.position v := by
  intro he
  have := (labels_position hu).symm.trans (he ▸ labels_position hv)
  exact h (Option.some.inj this)

end Positions

variable [Coefficient α]

section Structure

variable {m : Model V α}

theorem wellFormed_empty (t : Vartype) : (empty t : Model V α).WellFormed where
  length_adjacency := rfl
  symmetric _ _ := rfl
  irreflexive _ := rfl

theorem weight?_addCoupling {i j : Nat} (hij : i ≠ j) (hi : i < m.adjacency.length)
    (hj : j < m.adjacency.length) (b : α) (k l : Nat) :
    (m.addCoupling i j b).weight? k l =
      if (k = i ∧ l = j) ∨ (k = j ∧ l = i) then some ((m.weight? k l).getD 0 + b)
      else m.weight? k l := by
  simp only [weight?, addCoupling, List.getElem?_modify]
  by_cases hki : k = i
  · subst hki
    simp only [Ne.symm hij, if_false, if_true, List.getElem?_eq_getElem hi, Option.map_some,
      Option.map_eq_map, Option.bind_some, accumulate, OrderedMap.find?_adjust, hij, false_and,
      or_false, true_and]
    split <;> simp_all
  · by_cases hkj : k = j
    · subst hkj
      simp only [Ne.symm hki, if_false, if_true, List.getElem?_eq_getElem hj, Option.map_some,
        Option.map_eq_map, Option.bind_some, accumulate, OrderedMap.find?_adjust, hki, false_and,
        false_or, true_and]
      split <;> simp_all
    · simp [hki, hkj, Ne.symm hki, Ne.symm hkj]

theorem WellFormed.addCoupling (h : m.WellFormed) {i j : Nat} (hij : i ≠ j)
    (hi : i < m.numVariables) (hj : j < m.numVariables) (b : α) :
    (m.addCoupling i j b).WellFormed := by
  rw [← h.length_adjacency] at hi hj
  refine ⟨?_, fun k l => ?_, fun k => ?_⟩
  · simpa [Model.addCoupling, numVariables] using h.length_adjacency
  · rw [weight?_addCoupling hij hi hj, weight?_addCoupling hij hi hj, h.symmetric k l]
    exact if_congr (by tauto) rfl rfl
  · rw [weight?_addCoupling hij hi hj, if_neg (by omega), h.irreflexive]

theorem WellFormed.addOffset (h : m.WellFormed) (c : α) : (m.addOffset c).WellFormed :=
  ⟨h.length_adjacency, h.symmetric, h.irreflexive⟩

theorem WellFormed.scale (h : m.WellFormed) (k : α) : (m.scale k).WellFormed :=
  h.map_values (by simp [numVariables, Model.scale, OrderedMap.size, OrderedMap.map]) rfl

theorem WellFormed.length_couplingSums (h : m.WellFormed) :
    m.couplingSums.length = m.linear.size := by
  simpa [couplingSums, numVariables] using h.length_adjacency

theorem WellFormed.labels_rebias (h : m.WellFormed) (t : Vartype) (f : α → α → α) (k c : α) :
    (m.rebias t f k c).labels = m.labels :=
  OrderedMap.keys_zipWith f m.linear h.length_couplingSums

theorem WellFormed.rebias (h : m.WellFormed) (t : Vartype) (f : α → α → α) (k c : α) :
    (m.rebias t f k c).WellFormed := by
  refine h.map_values ?_ rfl
  rw [← length_labels, ← length_labels, h.labels_rebias]

theorem WellFormed.labels_toVartype (h : m.WellFormed) (t : Vartype) :
    (m.toVartype t).labels = m.labels := by
  unfold Model.toVartype
  split
  · exact h.labels_rebias ..
  · exact h.labels_rebias ..
  · rfl
  · rfl

theorem WellFormed.numVariables_toVartype (h : m.WellFormed) (t : Vartype) :
    (m.toVartype t).numVariables = m.numVariables := by
  rw [← length_labels, h.labels_toVartype, length_labels]

theorem WellFormed.toVartype (h : m.WellFormed) (t : Vartype) : (m.toVartype t).WellFormed := by
  unfold Model.toVartype
  split
  · exact h.rebias ..
  · exact h.rebias ..
  · exact h
  · exact h

@[simp] theorem vartype_toVartype (m : Model V α) (t : Vartype) : (m.toVartype t).vartype = t := by
  unfold Model.toVartype
  split <;> simp_all [toSpin, toBinary, Model.rebias]

end Structure

section Variables

variable [DecidableEq V] {m : Model V α} {u v : V}

theorem labels_addVariable (m : Model V α) (v : V) (b : α) :
    (m.addVariable v b).labels = if v ∈ m.labels then m.labels else m.labels ++ [v] :=
  OrderedMap.keys_adjust m.linear v 0 (· + b)

theorem mem_labels_addVariable {b : α} : u ∈ (m.addVariable v b).labels ↔ u ∈ m.labels ∨ u = v := by
  rw [labels_addVariable]
  split <;> grind

theorem labels_addVariable_of_mem (h : v ∈ m.labels) (b : α) :
    (m.addVariable v b).labels = m.labels := by
  rw [labels_addVariable, if_pos h]

theorem weight?_addVariable (m : Model V α) (v : V) (b : α) (i j : Nat) :
    (m.addVariable v b).weight? i j = m.weight? i j := by
  simp only [weight?, addVariable]
  split
  · rw [List.getElem?_append]
    split
    · rfl
    · rw [List.getElem?_eq_none (by omega : m.adjacency.length ≤ i)]
      cases i - m.adjacency.length <;> simp
  · rfl

theorem WellFormed.addVariable (h : m.WellFormed) (v : V) (b : α) :
    (m.addVariable v b).WellFormed := by
  refine ⟨?_, fun i j => ?_, fun i => ?_⟩
  · rw [← length_labels, labels_addVariable]
    simp only [Model.addVariable, h.length_adjacency, position_eq_numVariables_iff]
    by_cases hv : v ∈ m.labels <;> simp [hv, h.length_adjacency]
  · rw [weight?_addVariable, weight?_addVariable, h.symmetric]
  · rw [weight?_addVariable, h.irreflexive]

theorem WellFormed.addVariables (h : m.WellFormed) (l : List (V × α)) :
    (m.addVariables l).WellFormed := by
  induction l generalizing m with
  | nil => exact h
  | cons e l ih => exact ih (h.addVariable e.1 e.2)

def mention (m : Model V α) (u v : V) : Model V α := (m.addVariable u 0).addVariable v 0

theorem mem_labels_mention {w : V} : w ∈ (m.mention u v).labels ↔ w ∈ m.labels ∨ w = u ∨ w = v := by
  rw [mention, mem_labels_addVariable, mem_labels_addVariable, or_assoc]

theorem couple_eq (m : Model V α) (u v : V) (b : α) :
    m.couple u v b = (m.mention u v).addCoupling ((m.mention u v).position u)
      ((m.mention u v).position v) b := rfl

theorem labels_couple (m : Model V α) (u v : V) (b : α) :
    (m.couple u v b).labels = (m.mention u v).labels := rfl

theorem labels_couple_of_mem (hu : u ∈ m.labels) (hv : v ∈ m.labels) (b : α) :
    (m.couple u v b).labels = m.labels := by
  rw [labels_couple, mention, labels_addVariable_of_mem, labels_addVariable_of_mem hu]
  rwa [labels_addVariable_of_mem hu]

theorem WellFormed.mention (h : m.WellFormed) (u v : V) : (m.mention u v).WellFormed :=
  (h.addVariable u 0).addVariable v 0

theorem WellFormed.couple (h : m.WellFormed) (huv : u ≠ v) (b : α) :
    (m.couple u v b).WellFormed := by
  have hu : u ∈ (m.mention u v).labels := mem_labels_mention.2 (.inr (.inl rfl))
  have hv : v ∈ (m.mention u v).labels := mem_labels_mention.2 (.inr (.inr rfl))
  exact (h.mention u v).addCoupling (position_ne hu hv huv) (position_lt hu) (position_lt hv) b

theorem addInteraction_eq_ok_iff {m' : Model V α} {b : α} :
    m.addInteraction u v b = .ok m' ↔ u ≠ v ∧ m.couple u v b = m' := by
  rw [addInteraction]
  split <;> simp_all

theorem WellFormed.addInteractions (h : m.WellFormed) (l : List (V × V × α)) :
    (m.addInteractions l).1.WellFormed := by
  induction l generalizing m with
  | nil => exact h
  | cons e l ih =>
    obtain ⟨u, v, b⟩ := e
    rw [Model.addInteractions]
    split
    · next m' he =>
      obtain ⟨huv, rfl⟩ := addInteraction_eq_ok_iff.1 he
      exact ih (h.couple huv b)
    · exact h

theorem WellFormed.addQuboEntry (h : m.WellFormed) (u v : V) (b : α) :
    (m.addQuboEntry u v b).WellFormed := by
  rw [Model.addQuboEntry]
  split
  · exact h.addVariable u b
  · next huv => exact h.couple huv b

theorem wellFormed_ofQubo (q : List (V × V × α)) : (ofQubo q).WellFormed := by
  have key : ∀ m : Model V α, m.WellFormed →
      (q.foldl (fun m e => m.addQuboEntry e.1 e.2.1 e.2.2) m).WellFormed := by
    induction q with
    | nil => exact fun m h => h
    | cons e q ih => exact fun m h => ih _ (h.addQuboEntry e.1 e.2.1 e.2.2)
  exact key _ (wellFormed_empty .binary)

theorem vartype_addVariables (m : Model V α) (l : List (V × α)) :
    (m.addVariables l).vartype = m.vartype := by
  refine foldl_keeps vartype ?_ l m
  exact fun _ _ => rfl

theorem vartype_addInteractions (m : Model V α) (l : List (V × V × α)) :
    (m.addInteractions l).1.vartype = m.vartype := by
  induction l generalizing m with
  | nil => rfl
  | cons e l ih =>
    obtain ⟨u, v, b⟩ := e
    rw [Model.addInteractions]
    split
    · next he =>
      obtain ⟨-, rfl⟩ := addInteraction_eq_ok_iff.1 he
      exact ih _
    · rfl

theorem vartype_ofQubo (q : List (V × V × α)) : (ofQubo q).vartype = .binary := by
  have hstep : ∀ (m : Model V α) (e : V × V × α),
      (m.addQuboEntry e.1 e.2.1 e.2.2).vartype = m.vartype := fun m e => by
    rw [Model.addQuboEntry]
    split <;> rfl
  exact foldl_keeps vartype hstep q (.empty .binary)

theorem wellFormed_ofIsing {h : List (V × α)} {j : List (V × V × α)} {m : Model V α}
    (he : ofIsing h j = .ok m) : m.WellFormed := by
  have hw := ((wellFormed_empty .spin).addVariables h).addInteractions j
  rw [ofIsing] at he
  split at he
  · next heq =>
    rw [heq] at hw
    exact Except.ok.inj he ▸ hw
  · cases he

/-- The models that come out of any sequence of operations, those that fail halfway included. -/
inductive Reachable : Model V α → Prop
  | empty (t : Vartype) : Reachable (.empty t)
  | ofQubo (q : List (V × V × α)) : Reachable (.ofQubo q)
  | ofIsing {h : List (V × α)} {j : List (V × V × α)} {m : Model V α} :
    ofIsing h j = .ok m → Reachable m
  | addVariable {m : Model V α} (v : V) (b : α) : Reachable m → Reachable (m.addVariable v b)
  | addVariables {m : Model V α} (l : List (V × α)) : Reachable m → Reachable (m.addVariables l)
  | addInteraction {m m' : Model V α} {u v : V} {b : α} :
    Reachable m → m.addInteraction u v b = .ok m' → Reachable m'
  | addInteractions {m : Model V α} (l : List (V × V × α)) :
    Reachable m → Reachable (m.addInteractions l).1
  | addOffset {m : Model V α} (c : α) : Reachable m → Reachable (m.addOffset c)
  | scale {m : Model V α} (k : α) : Reachable m → Reachable (m.scale k)
  | toVartype {m : Model V α} (t : Vartype) : Reachable m → Reachable (m.toVartype t)

theorem Reachable.wellFormed (h : m.Reachable) : m.WellFormed := by
  induction h with
  | empty t => exact wellFormed_empty t
  | ofQubo q => exact wellFormed_ofQubo q
  | ofIsing he => exact wellFormed_ofIsing he
  | addVariable v b _ ih => exact ih.addVariable v b
  | addVariables l _ ih => exact ih.addVariables l
  | addInteraction _ he ih =>
    obtain ⟨huv, rfl⟩ := addInteraction_eq_ok_iff.1 he
    exact ih.couple huv _
  | addInteractions l _ ih => exact ih.addInteractions l
  | addOffset c _ ih => exact ih.addOffset c
  | scale k _ ih => exact ih.scale k
  | toVartype t _ ih => exact ih.toVartype t

end Variables

end BinaryQuadratic.Model

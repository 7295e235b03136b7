import BinaryQuadratic.Proofs.Model.Conversion
import BinaryQuadratic.Proofs.Model.Labels

/-! The polynomial of a model as a function of values given by label. Each step of construction adds
its own term, whatever the positions of its variables. -/

namespace BinaryQuadratic.Model

open Finset Coefficient

variable {V α : Type} [Exact α]

def evaluate (m : Model V α) (x : V → α) : α :=
  m.polynomial fun i => (m.labelAt? i).elim 0 x

variable {m : Model V α}

theorem evaluate_empty (t : Vartype) (x : V → α) : (empty t).evaluate x = 0 := by
  have hnum : (empty t : Model V α).numVariables = 0 := rfl
  rw [evaluate, polynomial, hnum]
  simp [empty]

theorem polynomial_addOffset (m : Model V α) (c : α) (y : Nat → α) :
    (m.addOffset c).polynomial y = m.polynomial y + c := by
  unfold polynomial
  show m.offset + c + _ + _ = _
  rw [add_right_comm m.offset, add_right_comm]
  rfl

theorem evaluate_addOffset (m : Model V α) (c : α) (x : V → α) :
    (m.addOffset c).evaluate x = m.evaluate x + c := m.polynomial_addOffset c _

theorem WellFormed.polynomial_eq_of_le (h : m.WellFormed) {n : Nat} (hn : m.numVariables ≤ n)
    (y : Nat → α) :
    m.polynomial y = m.offset + ∑ i ∈ range n, m.bias i * y i +
      (∑ i ∈ range n, ∑ j ∈ range n, m.weight i j * y i * y j) / 2 := by
  -- past the last variable there are no biases to add
  have hsub : range m.numVariables ⊆ range n := Finset.range_mono hn
  have hlinear := Finset.sum_subset hsub (f := fun i => m.bias i * y i) fun i _ hi => by
    rw [bias_eq_zero (by simpa using hi), zero_mul]
  have hrow : ∀ i, ∑ j ∈ range m.numVariables, m.weight i j * y i * y j =
      ∑ j ∈ range n, m.weight i j * y i * y j := fun i =>
    Finset.sum_subset hsub fun j _ hj => by
      rw [h.weight_comm, h.weight_eq_zero (by simpa using hj), zero_mul, zero_mul]
  have hrows := Finset.sum_subset hsub
    (f := fun i => ∑ j ∈ range n, m.weight i j * y i * y j) fun i _ hi =>
    Finset.sum_eq_zero fun j _ => by
      rw [h.weight_eq_zero (by simpa using hi), zero_mul, zero_mul]
  rw [polynomial, hlinear, Finset.sum_congr rfl fun i _ => hrow i, hrows]

theorem weight_addCoupling {i j : Nat} (hij : i ≠ j) (hi : i < m.adjacency.length)
    (hj : j < m.adjacency.length) (b : α) (k l : Nat) :
    (m.addCoupling i j b).weight k l =
      m.weight k l + ((if k = i then if l = j then b else 0 else 0) +
        if k = j then if l = i then b else 0 else 0) := by
  rw [weight, weight?_addCoupling hij hi hj, weight]
  by_cases hki : k = i
  · subst hki
    by_cases hlj : l = j <;> simp [hlj, hij]
  · by_cases hkj : k = j
    · subst hkj
      by_cases hli : l = i <;> simp [hli, hki]
    · simp [hki, hkj]

theorem WellFormed.polynomial_addCoupling (h : m.WellFormed) {i j : Nat} (hij : i ≠ j)
    (hi : i < m.numVariables) (hj : j < m.numVariables) (b : α) (y : Nat → α) :
    (m.addCoupling i j b).polynomial y = m.polynomial y + b * y i * y j := by
  have hi' : i < m.adjacency.length := h.length_adjacency ▸ hi
  have hj' : j < m.adjacency.length := h.length_adjacency ▸ hj
  show m.offset + ∑ k ∈ range m.numVariables, m.bias k * y k +
    (∑ k ∈ range m.numVariables, ∑ l ∈ range m.numVariables,
      (m.addCoupling i j b).weight k l * y k * y l) / 2 = _
  simp only [weight_addCoupling hij hi' hj', add_mul, Finset.sum_add_distrib, ite_mul, zero_mul,
    Finset.sum_ite_irrel, Finset.sum_const_zero, Finset.sum_ite_eq', Finset.mem_range, hi, hj,
    if_true]
  rw [polynomial]
  ring

section Variables

variable [DecidableEq V] {u v : V}

theorem labelAt?_addVariable (m : Model V α) (v : V) (b : α) (i : Nat) :
    (m.addVariable v b).labelAt? i = if i = m.position v then some v else m.labelAt? i := by
  rw [labelAt?_eq, labelAt?_eq]
  by_cases hv : v ∈ m.labels
  · rw [labels_addVariable_of_mem hv]
    split
    · next hi => rw [hi, labels_position hv]
    · rfl
  · have hpos : m.position v = m.labels.length := by
      rw [position, indexOf?_eq_none_iff.2 hv, Option.getD_none, length_labels]
    rw [labels_addVariable, if_neg hv, hpos, List.getElem?_append]
    obtain hlt | rfl | hgt := lt_trichotomy i m.labels.length
    · rw [if_pos hlt, if_neg hlt.ne]
    · simp
    · have hpast : ([v] : List V).length ≤ i - m.labels.length := by
        rw [List.length_singleton]
        omega
      rw [if_neg hgt.not_gt, if_neg hgt.ne', List.getElem?_eq_none hpast,
        List.getElem?_eq_none hgt.le]

theorem bias_addVariable (m : Model V α) (v : V) (b : α) (i : Nat) :
    (m.addVariable v b).bias i = m.bias i + if i = m.position v then b else 0 := by
  have hvalues : (m.addVariable v b).biases = _ := m.linear.values_adjust v 0 (· + b)
  rw [bias, hvalues, bias, List.getD_eq_getElem?_getD, List.getD_eq_getElem?_getD]
  cases hv : m.linear.indexOf? v with
  | some k =>
    have hpos : m.position v = k := by rw [position, indexOf?, hv, Option.getD_some]
    have hk : k < m.biases.length := by
      rw [length_biases, ← hpos]
      exact position_lt (List.mem_of_getElem? (OrderedMap.indexOf?_eq_some_iff.1 hv))
    show ((m.biases.modify k (· + b))[i]?).getD 0 = _
    rw [hpos, List.getElem?_modify]
    by_cases hik : i = k
    · subst hik
      rw [List.getElem?_eq_getElem hk, if_pos rfl]
      simp
    · simp [hik, Ne.symm hik]
  | none =>
    have hpos : m.position v = m.biases.length := by
      rw [position, indexOf?, hv, Option.getD_none, length_biases]
    show ((m.biases ++ [0 + b])[i]?).getD 0 = _
    rw [hpos, zero_add, List.getElem?_append]
    by_cases hlt : i < m.biases.length
    · rw [if_pos hlt, if_neg hlt.ne, add_zero]
    · rw [if_neg hlt, List.getElem?_eq_none (not_lt.1 hlt), Option.getD_none, zero_add]
      by_cases hi : i = m.biases.length
      · simp [hi]
      · have hpast : ([b] : List α).length ≤ i - m.biases.length := by
          rw [List.length_singleton]
          omega
        rw [if_neg hi, List.getElem?_eq_none hpast, Option.getD_none]

theorem WellFormed.polynomial_addVariable (h : m.WellFormed) (v : V) (b : α) (y : Nat → α) :
    (m.addVariable v b).polynomial y = m.polynomial y + b * y (m.position v) := by
  have hlabels : ∀ w ∈ m.labels, w ∈ (m.addVariable v b).labels := fun w hw =>
    mem_labels_addVariable.2 (.inl hw)
  have hle : m.numVariables ≤ (m.addVariable v b).numVariables := by
    rw [← length_labels, ← length_labels]
    exact (m.nodup_labels.subperm hlabels).length_le
  have hweight : ∀ i j, (m.addVariable v b).weight i j = m.weight i j := fun i j => by
    rw [weight, weight?_addVariable, weight]
  have hlt : m.position v < (m.addVariable v b).numVariables := by
    have hlabel : (m.addVariable v b).labels[m.position v]? = some v := by
      rw [← labelAt?_eq, labelAt?_addVariable, if_pos rfl]
    rw [← length_labels]
    exact (List.getElem?_eq_some_iff.1 hlabel).1
  rw [h.polynomial_eq_of_le hle, polynomial]
  simp only [hweight, bias_addVariable, add_mul, Finset.sum_add_distrib, ite_mul, zero_mul,
    Finset.sum_ite_eq', Finset.mem_range, hlt, if_true]
  show m.offset + _ + _ = _
  ring

theorem WellFormed.evaluate_addVariable (h : m.WellFormed) (v : V) (b : α) (x : V → α) :
    (m.addVariable v b).evaluate x = m.evaluate x + b * x v := by
  have hpos : ((m.addVariable v b).labelAt? (m.position v)).elim 0 x = x v := by
    rw [labelAt?_addVariable, if_pos rfl, Option.elim_some]
  have hold : m.polynomial (fun i => ((m.addVariable v b).labelAt? i).elim 0 x) =
      m.evaluate x := by
    apply polynomial_congr
    intro i hi
    rw [labelAt?_addVariable]
    split
    · next hpos =>
      subst hpos
      rw [labelAt?_eq, labels_position_of_lt hi]
    · rfl
  rw [evaluate, h.polynomial_addVariable, hold, hpos]

theorem WellFormed.evaluate_mention (h : m.WellFormed) (u v : V) (x : V → α) :
    (m.mention u v).evaluate x = m.evaluate x := by
  rw [Model.mention, (h.addVariable u 0).evaluate_addVariable, h.evaluate_addVariable]
  ring

theorem WellFormed.evaluate_couple (h : m.WellFormed) (huv : u ≠ v) (b : α) (x : V → α) :
    (m.couple u v b).evaluate x = m.evaluate x + b * x u * x v := by
  have hu : u ∈ (m.mention u v).labels := mem_labels_mention.2 (.inr (.inl rfl))
  have hv : v ∈ (m.mention u v).labels := mem_labels_mention.2 (.inr (.inr rfl))
  have hcoupling := (h.mention u v).polynomial_addCoupling (position_ne hu hv huv)
    (position_lt hu) (position_lt hv) b fun i => ((m.mention u v).labelAt? i).elim 0 x
  simp only [labelAt?_eq, labels_position hu, labels_position hv, Option.elim_some] at hcoupling
  rw [← h.evaluate_mention u v, couple_eq]
  exact hcoupling

/-- A model with the variables of another one and an additional term. -/
structure Adds (m m' : Model V α) (f : (V → α) → α) : Prop where
  wellFormed : m'.WellFormed
  labels_eq : m'.labels = m.labels
  vartype_eq : m'.vartype = m.vartype
  evaluate_eq : ∀ x, m'.evaluate x = m.evaluate x + f x

omit [DecidableEq V] in
theorem Adds.refl (h : m.WellFormed) : m.Adds m fun _ => 0 :=
  ⟨h, rfl, rfl, fun _ => (add_zero _).symm⟩

omit [DecidableEq V] in
theorem Adds.trans {m' m'' : Model V α} {f g : (V → α) → α} (h : m.Adds m' f)
    (h' : m'.Adds m'' g) : m.Adds m'' fun x => f x + g x where
  wellFormed := h'.wellFormed
  labels_eq := h'.labels_eq.trans h.labels_eq
  vartype_eq := h'.vartype_eq.trans h.vartype_eq
  evaluate_eq x := by rw [h'.evaluate_eq, h.evaluate_eq, add_assoc]

omit [DecidableEq V] in
theorem WellFormed.adds_addOffset (h : m.WellFormed) (c : α) : m.Adds (m.addOffset c) fun _ => c :=
  ⟨h.addOffset c, rfl, rfl, m.evaluate_addOffset c⟩

theorem WellFormed.adds_addVariable (h : m.WellFormed) (hv : v ∈ m.labels) (b : α) :
    m.Adds (m.addVariable v b) fun x => b * x v :=
  ⟨h.addVariable v b, labels_addVariable_of_mem hv b, rfl, h.evaluate_addVariable v b⟩

theorem WellFormed.adds_couple (h : m.WellFormed) (hu : u ∈ m.labels) (hv : v ∈ m.labels)
    (huv : u ≠ v) (b : α) : m.Adds (m.couple u v b) fun x => b * x u * x v :=
  ⟨h.couple huv b, labels_couple_of_mem hu hv b, rfl, h.evaluate_couple huv b⟩

omit [DecidableEq V] in
theorem Adds.foldl {β : Type} {step : Model V α → β → Model V α} {f : β → (V → α) → α}
    {l : List β} (h : m.WellFormed)
    (hstep : ∀ b ∈ l, ∀ m' : Model V α, m'.WellFormed → m'.labels = m.labels →
      m'.Adds (step m' b) (f b)) :
    m.Adds (l.foldl step m) fun x => (l.map fun b => f b x).sum := by
  induction l generalizing m with
  | nil => exact .refl h
  | cons b l ih =>
    have hfirst := hstep b (by simp) m h rfl
    have hrest := ih hfirst.wellFormed fun b' hb' m' hm' hlabels =>
      hstep b' (List.mem_cons_of_mem _ hb') m' hm' (hlabels.trans hfirst.labels_eq)
    exact hfirst.trans hrest

theorem WellFormed.adds_addVariables (h : m.WellFormed) {l : List (V × α)}
    (hl : ∀ e ∈ l, e.1 ∈ m.labels) :
    m.Adds (m.addVariables l) fun x => (l.map fun e => e.2 * x e.1).sum :=
  .foldl h fun e he _ hm' hlabels => hm'.adds_addVariable (hlabels ▸ hl e he) e.2

def blank (t : Vartype) (vs : List V) : Model V α :=
  (empty t).addVariables (vs.map fun v => (v, 0))

theorem wellFormed_blank (t : Vartype) (vs : List V) : (blank t vs : Model V α).WellFormed :=
  (wellFormed_empty t).addVariables _

theorem vartype_blank (t : Vartype) (vs : List V) : (blank t vs : Model V α).vartype = t :=
  vartype_addVariables _ _

theorem labels_blank (t : Vartype) {vs : List V} (h : vs.Nodup) :
    (blank t vs : Model V α).labels = vs := by
  have hmentions := (empty t : Model V α).mentions_addVariables (vs.map fun v => (v, 0))
  rw [Mentions, List.map_map] at hmentions
  exact hmentions.trans ((congrArg _ (List.map_id vs)).trans (eraseDups_of_nodup h))

theorem evaluate_blank (t : Vartype) (vs : List V) (x : V → α) :
    (blank t vs).evaluate x = 0 := by
  have key : ∀ (l : List V) (m : Model V α), m.WellFormed →
      (m.addVariables (l.map fun v => (v, 0))).evaluate x = m.evaluate x := by
    intro l
    induction l with
    | nil => exact fun m _ => rfl
    | cons v l ih =>
      intro m hm
      have hrest := ih (m.addVariable v 0) (hm.addVariable v 0)
      rw [hm.evaluate_addVariable, zero_mul, add_zero] at hrest
      exact hrest
  rw [blank, key vs _ (wellFormed_empty t), evaluate_empty]

end Variables

end BinaryQuadratic.Model

import BinaryQuadratic.Proofs.Model.RoundTrip
import BinaryQuadratic.Proofs.Model.Labels

/-! A model that is put together again from its linear biases and its interactions. Neighbours are
listed in another order then, but those that come after a variable are not, and these decide the list
of interactions, and with it the energies. -/

namespace BinaryQuadratic.Model

open Coefficient

variable {V α : Type} {m m' : Model V α}

section Later

def later (m : Model V α) (i : Nat) : List (Nat × α) :=
  (m.adjacency[i]?.elim [] OrderedMap.entries).filter fun e => i < e.1

theorem later_of_le {i : Nat} (h : m.adjacency.length ≤ i) : m.later i = [] := by
  rw [later, List.getElem?_eq_none h]
  rfl

theorem interactionsFrom_eq_flatMap (i : Nat) (rows : List (OrderedMap Nat α)) :
    interactionsFrom i rows = (List.range rows.length).flatMap fun k =>
      ((rows[k]?.elim [] OrderedMap.entries).filter fun e => i + k < e.1).map
        fun e => (i + k, e.1, e.2) := by
  induction rows generalizing i with
  | nil => rfl
  | cons row rows ih =>
    rw [interactionsFrom, ih, List.length_cons, List.range_succ_eq_map, List.flatMap_cons,
      List.flatMap_map]
    simp only [List.getElem?_cons_zero, List.getElem?_cons_succ, Option.elim_some, Nat.add_zero,
      show ∀ k, i + 1 + k = i + (k + 1) by omega]

theorem interactions_eq_flatMap (m : Model V α) : m.interactions =
    (List.range m.adjacency.length).flatMap fun i => (m.later i).map fun e => (i, e.1, e.2) := by
  rw [interactions, interactionsFrom_eq_flatMap]
  simp only [Nat.zero_add, later]

theorem interactions_congr (hn : m'.adjacency.length = m.adjacency.length)
    (h : ∀ i, m'.later i = m.later i) : m'.interactions = m.interactions := by
  rw [interactions_eq_flatMap, interactions_eq_flatMap, hn]
  simp only [h]

theorem flatMap_range_ite {β : Type} (f : Nat → List β) (i n : Nat) :
    ((List.range n).flatMap fun k => if k = i then f k else []) = if i < n then f i else [] := by
  induction n with
  | zero => rfl
  | succ n ih =>
    rw [List.range_succ, List.flatMap_append, ih, List.flatMap_singleton]
    obtain hlt | rfl | hgt := lt_trichotomy i n
    · simp [hlt, hlt.ne', Nat.lt_succ_of_lt hlt]
    · simp
    · have hle : ¬i < n + 1 := by omega
      simp [hgt.ne, hgt.not_gt, hle]

theorem filter_interactions (m : Model V α) (i : Nat) :
    (m.interactions.filter fun e => e.1 = i).map Prod.snd = m.later i := by
  have hrow : ∀ k, (((m.later k).map fun e => (k, e.1, e.2)).filter fun e => e.1 = i).map Prod.snd =
      if k = i then m.later k else [] := by
    intro k
    by_cases hk : k = i <;> simp [List.filter_map, Function.comp_def, hk]
  rw [interactions_eq_flatMap, List.filter_flatMap, List.map_flatMap]
  simp only [hrow, flatMap_range_ite]
  split
  · rfl
  · next hle => exact (later_of_le (Nat.le_of_not_lt hle)).symm

end Later

section Couplings

variable [Exact α]

theorem later_addCoupling {i j : Nat} (hij : i < j) (hi : i < m.adjacency.length)
    (hnew : m.weight? i j = none) (b : α) (k : Nat) :
    (m.addCoupling i j b).later k = m.later k ++ if k = i then [(j, b)] else [] := by
  rw [later, later, addCoupling, List.getElem?_modify, List.getElem?_modify]
  by_cases hki : k = i
  · subst hki
    have hrow : j ∉ (m.adjacency[k]).keys := by
      rw [← OrderedMap.find?_eq_none_iff]
      simpa [weight?, hi] using hnew
    have hentries := OrderedMap.entries_adjust_of_notMem hrow (0 : α) (· + b)
    simp [hi, hij.ne', accumulate, hentries, hij]
  · by_cases hkj : k = j
    · subst hkj
      rw [if_neg hki, List.append_nil]
      cases hrow : m.adjacency[k]? with
      | none => simp
      | some row =>
        have hfilter := row.filter_entries_adjust (p := fun e => decide (k < e)) (k := i)
          (by simpa using hij.le) (0 : α) (· + b)
        simpa [hij.ne, accumulate] using hfilter
    · simp [hki, Ne.symm hki, Ne.symm hkj]

def addCouplings (m : Model V α) (l : List (Nat × Nat × α)) : Model V α :=
  l.foldl (fun m e => m.addCoupling e.1 e.2.1 e.2.2) m

theorem length_adjacency_addCoupling (m : Model V α) (i j : Nat) (b : α) :
    (m.addCoupling i j b).adjacency.length = m.adjacency.length := by
  simp [addCoupling]

theorem length_adjacency_addCouplings (m : Model V α) (l : List (Nat × Nat × α)) :
    (m.addCouplings l).adjacency.length = m.adjacency.length :=
  foldl_keeps (fun m => m.adjacency.length) (fun m _ => m.length_adjacency_addCoupling ..) l m

theorem linear_addCouplings (m : Model V α) (l : List (Nat × Nat × α)) :
    (m.addCouplings l).linear = m.linear := by
  refine foldl_keeps linear ?_ l m
  exact fun _ _ => rfl

theorem offset_addCouplings (m : Model V α) (l : List (Nat × Nat × α)) :
    (m.addCouplings l).offset = m.offset := by
  refine foldl_keeps offset ?_ l m
  exact fun _ _ => rfl

theorem later_addCouplings {l : List (Nat × Nat × α)}
    (hl : ∀ e ∈ l, e.1 < e.2.1 ∧ e.2.1 < m.adjacency.length)
    (hnew : ∀ e ∈ l, m.weight? e.1 e.2.1 = none)
    (hpairs : (l.map fun e => (e.1, e.2.1)).Nodup) (k : Nat) :
    (m.addCouplings l).later k = m.later k ++ (l.filter fun e => e.1 = k).map Prod.snd := by
  induction l generalizing m with
  | nil => exact (List.append_nil _).symm
  | cons e l ih =>
    obtain ⟨hfirst, hrest⟩ := List.nodup_cons.1 hpairs
    obtain ⟨hlt, hbound⟩ := hl e List.mem_cons_self
    have hlen := m.length_adjacency_addCoupling e.1 e.2.1 e.2.2
    -- a pair that is still to come is not the one just added, whichever end is named first
    have hfresh : ∀ e' ∈ l, (m.addCoupling e.1 e.2.1 e.2.2).weight? e'.1 e'.2.1 = none := by
      intro e' he'
      have hne : (e'.1, e'.2.1) ≠ (e.1, e.2.1) := fun h => hfirst (List.mem_map.2 ⟨e', he', h⟩)
      have hlt' := (hl e' (List.mem_cons_of_mem _ he')).1
      rw [weight?_addCoupling hlt.ne (hlt.trans hbound) hbound, if_neg,
        hnew e' (List.mem_cons_of_mem _ he')]
      rintro (⟨h1, h2⟩ | ⟨h1, h2⟩)
      · exact hne (by rw [h1, h2])
      · omega
    have hlater := later_addCoupling hlt (hlt.trans hbound) (hnew e List.mem_cons_self) e.2.2 k
    rw [addCouplings, List.foldl_cons, ← addCouplings,
      ih (fun e' he' => hlen ▸ hl e' (List.mem_cons_of_mem _ he')) hfresh hrest, hlater,
      List.append_assoc, List.filter_cons]
    obtain rfl | hk := eq_or_ne e.1 k
    · simp
    · simp [hk, hk.symm]

end Couplings

section Variables

variable [DecidableEq V] [Coefficient α]

theorem later_addVariable (m : Model V α) (v : V) (b : α) (i : Nat) :
    (m.addVariable v b).later i = m.later i := by
  rw [later, later, addVariable]
  split
  · rw [List.getElem?_append]
    split
    · rfl
    · next hi =>
      rw [List.getElem?_eq_none (Nat.le_of_not_lt hi)]
      cases i - m.adjacency.length <;> rfl
  · rfl

theorem later_addVariables (m : Model V α) (l : List (V × α)) (i : Nat) :
    (m.addVariables l).later i = m.later i :=
  foldl_keeps (fun m => m.later i) (fun m e => m.later_addVariable e.1 e.2 i) l m

theorem weight?_addVariables (m : Model V α) (l : List (V × α)) (i j : Nat) :
    (m.addVariables l).weight? i j = m.weight? i j :=
  foldl_keeps (fun m => m.weight? i j) (fun m e => m.weight?_addVariable e.1 e.2 i j) l m

theorem offset_addVariables (m : Model V α) (l : List (V × α)) :
    (m.addVariables l).offset = m.offset := by
  refine foldl_keeps offset ?_ l m
  exact fun _ _ => rfl

theorem linear_addVariables (m : Model V α) (l : List (V × α)) :
    (m.addVariables l).linear = l.foldl (fun r e => accumulate r e.1 e.2) m.linear := by
  refine (List.foldl_hom linear ?_).symm
  exact fun _ _ => rfl

end Variables

section Assembly

variable [DecidableEq V] [Exact α] {u v : V}

theorem addVariable_zero (hrows : m.adjacency.length = m.numVariables) (h : v ∈ m.labels) :
    m.addVariable v 0 = m := by
  have hlinear : accumulate m.linear v 0 = m.linear := by
    refine OrderedMap.eq_of_keys_of_values ?_ ?_
    · exact (OrderedMap.keys_adjust ..).trans (if_pos h)
    · rw [accumulate, OrderedMap.values_adjust]
      cases hi : m.linear.indexOf? v with
      | none => exact absurd h (OrderedMap.indexOf?_eq_none_iff.1 hi)
      | some i =>
        have hid : (fun b : α => b + 0) = id := funext add_zero
        rw [hid]
        exact List.modify_id i _
  rw [addVariable, hlinear, hrows, if_neg (position_lt h).ne]

theorem couple_of_mem (hrows : m.adjacency.length = m.numVariables) (hu : u ∈ m.labels)
    (hv : v ∈ m.labels) (b : α) :
    m.couple u v b = m.addCoupling (m.position u) (m.position v) b := by
  rw [couple_eq, mention, addVariable_zero hrows hu, addVariable_zero hrows hv]

theorem addInteractions_labelled {l : List (Nat × Nat × α)}
    (hl : ∀ e ∈ l, e.1 ≠ e.2.1 ∧ ∃ u v, m.labelAt? e.1 = some u ∧ m.labelAt? e.2.1 = some v)
    (hrows : m'.adjacency.length = m'.numVariables) (hlabels : m'.labels = m.labels) :
    (m'.addInteractions (l.filterMap fun (i, j, b) => do
      pure (← m.labelAt? i, ← m.labelAt? j, b))).1 = m'.addCouplings l := by
  induction l generalizing m' with
  | nil => rfl
  | cons e l ih =>
    obtain ⟨i, j, b⟩ := e
    obtain ⟨hij, u, v, hu, hv⟩ := hl (i, j, b) List.mem_cons_self
    have huv : u ≠ v := by
      rintro rfl
      exact hij (labelAt?_injective hu hv)
    have hu' : m'.labels[i]? = some u := hlabels ▸ hu
    have hv' : m'.labels[j]? = some v := hlabels ▸ hv
    have hcouple : m'.couple u v b = m'.addCoupling i j b := by
      rw [couple_of_mem hrows (List.mem_of_getElem? hu') (List.mem_of_getElem? hv'), position,
        position, indexOf?_eq_some_iff.2 hu', indexOf?_eq_some_iff.2 hv', Option.getD_some,
        Option.getD_some]
    have hrows' : (m'.addCoupling i j b).adjacency.length = (m'.addCoupling i j b).numVariables :=
      (m'.length_adjacency_addCoupling i j b).trans hrows
    have hlabels' : (m'.addCoupling i j b).labels = m.labels := hlabels
    have hrest := ih (fun e he => hl e (List.mem_cons_of_mem _ he)) hrows' hlabels'
    simpa [hu, hv, addInteractions, addInteraction, huv, hcouple, addCouplings] using hrest

def assemble (t : Vartype) (h : List (V × α)) (j : List (V × V × α)) : Model V α :=
  (((empty t).addVariables h).addInteractions j).1

theorem ofQubo_eq_assemble {h : List (V × α)} {j : List (V × V × α)} (hj : ∀ e ∈ j, e.1 ≠ e.2.1) :
    ofQubo (h.map (fun e => (e.1, e.1, e.2)) ++ j) = assemble .binary h j := by
  have hlinear : ∀ m : Model V α, (h.map fun e => (e.1, e.1, e.2)).foldl
      (fun m e => m.addQuboEntry e.1 e.2.1 e.2.2) m = m.addVariables h := fun m => by
    simp only [List.foldl_map, addQuboEntry, if_true, addVariables]
  have hquadratic : ∀ m : Model V α,
      j.foldl (fun m e => m.addQuboEntry e.1 e.2.1 e.2.2) m = (m.addInteractions j).1 := by
    induction j with
    | nil => exact fun _ => rfl
    | cons e j ih =>
      intro m
      have hne := hj e List.mem_cons_self
      rw [List.foldl_cons, ih fun e he => hj e (List.mem_cons_of_mem _ he)]
      simp only [addQuboEntry, addInteractions, addInteraction, if_neg hne]
  show (h.map (fun e => (e.1, e.1, e.2)) ++ j).foldl
    (fun m e => m.addQuboEntry e.1 e.2.1 e.2.2) (empty .binary) = _
  rw [List.foldl_append, hlinear, hquadratic, assemble]

theorem ofIsing_eq_assemble {h : List (V × α)} {j : List (V × V × α)} (hj : ∀ e ∈ j, e.1 ≠ e.2.1) :
    ofIsing h j = .ok (assemble .spin h j) := ofIsing_eq_ok_iff.2 ⟨hj, rfl⟩

omit [DecidableEq V] [Exact α] in
theorem ne_of_mem_quadraticTerms {e : V × V × α} (he : e ∈ m.quadraticTerms) : e.1 ≠ e.2.1 := by
  obtain ⟨i, j, hu, hv, hlt, -⟩ := mem_quadraticTerms_iff.1 he
  intro huv
  exact hlt.ne (labelAt?_injective hu (huv ▸ hv))

theorem linear_addVariables_entries (m : Model V α) (t : Vartype) :
    ((empty t).addVariables m.linear.entries).linear = m.linear := by
  apply OrderedMap.ext
  rw [linear_addVariables]
  refine OrderedMap.entries_foldl (m := ∅) (fun r e hnew => ?_) m.linear.nodup
  simpa [accumulate] using OrderedMap.entries_adjust_of_notMem hnew (0 : α) (· + e.2)

theorem WellFormed.assemble_eq_addCouplings (h : m.WellFormed) (t : Vartype) :
    assemble t m.linear.entries m.quadraticTerms =
      ((empty t).addVariables m.linear.entries).addCouplings m.interactions := by
  refine addInteractions_labelled (fun e he => ⟨?_, h.exists_labels he⟩) ?_ ?_
  · exact (mem_interactions_iff.1 he).1.ne
  · exact ((wellFormed_empty t).addVariables _).length_adjacency
  · exact congrArg OrderedMap.keys (m.linear_addVariables_entries t)

/-- Each variable finds its later neighbours again in the order in which it listed them. -/
theorem WellFormed.interactions_assemble (h : m.WellFormed) (t : Vartype) :
    (assemble t m.linear.entries m.quadraticTerms).interactions = m.interactions := by
  have hlinear := m.linear_addVariables_entries t
  set start := (empty t).addVariables m.linear.entries with hstart
  have hrows : start.adjacency.length = m.adjacency.length := by
    rw [((wellFormed_empty t).addVariables _).length_adjacency, h.length_adjacency, numVariables,
      hlinear, numVariables]
  have hpositions : ∀ e ∈ m.interactions, e.1 < e.2.1 ∧ e.2.1 < start.adjacency.length := by
    intro e he
    obtain ⟨hlt, hw⟩ := mem_interactions_iff.1 he
    rw [hrows, h.length_adjacency]
    exact ⟨hlt, h.lt_of_weight? (h.symmetric _ _ ▸ hw)⟩
  have hfresh : ∀ e ∈ m.interactions, start.weight? e.1 e.2.1 = none := fun _ _ =>
    weight?_addVariables ..
  rw [h.assemble_eq_addCouplings]
  refine interactions_congr ((length_adjacency_addCouplings ..).trans hrows) fun i => ?_
  have hempty : start.later i = [] := later_addVariables ..
  rw [later_addCouplings hpositions hfresh (nodup_interactionsFrom 0 m.adjacency), hempty,
    List.nil_append, filter_interactions]

theorem wellFormed_assemble (t : Vartype) (h : List (V × α)) (j : List (V × V × α)) :
    (assemble t h j).WellFormed := ((wellFormed_empty t).addVariables h).addInteractions j

theorem vartype_assemble (t : Vartype) (h : List (V × α)) (j : List (V × V × α)) :
    (assemble t h j).vartype = t := (vartype_addInteractions ..).trans (vartype_addVariables ..)

end Assembly

/-- The second model has the coefficients of the first and lists them in the same order, while the
rows of its pairs may be in another order. -/
structure Copies (m m' : Model V α) : Prop where
  vartype_eq : m'.vartype = m.vartype
  linear_eq : m'.linear = m.linear
  interactions_eq : m'.interactions = m.interactions
  offset_eq : m'.offset = m.offset

namespace Copies

theorem labels_eq (h : Copies m m') : m'.labels = m.labels := congrArg OrderedMap.keys h.linear_eq

theorem quadraticTerms_eq (h : Copies m m') : m'.quadraticTerms = m.quadraticTerms := by
  simp only [quadraticTerms, h.interactions_eq, labelAt?_eq, h.labels_eq]

theorem weight?_eq (h : Copies m m') (hw : m.WellFormed) (hw' : m'.WellFormed) (i j : Nat) :
    m'.weight? i j = m.weight? i j := by
  have hlater : ∀ i j, i < j → m'.weight? i j = m.weight? i j := fun i j hij =>
    Option.ext fun b => by
      have hmem := congrArg ((i, j, b) ∈ ·) h.interactions_eq
      simpa [mem_interactions_iff, hij] using hmem
  obtain hlt | rfl | hgt := lt_trichotomy i j
  · exact hlater i j hlt
  · rw [hw.irreflexive, hw'.irreflexive]
  · rw [hw.symmetric, hw'.symmetric, hlater j i hgt]

theorem energyOfState?_eq [Exact α] (h : Copies m m') (hw : m.WellFormed) (hw' : m'.WellFormed)
    (s : PackedState) : m'.energyOfState? s = m.energyOfState? s := by
  have hn : m'.numVariables = m.numVariables := by rw [numVariables, h.linear_eq, numVariables]
  have hpolynomial : m'.polynomial = m.polynomial := by
    funext y
    simp only [polynomial, hn, h.offset_eq, bias, biases, h.linear_eq, weight,
      h.weight?_eq hw hw']
  by_cases hs : s.len = m.numVariables
  · rw [hw'.energyOfState?_eq (hs.trans hn.symm), hw.energyOfState?_eq hs, energyAt, energyAt,
      h.vartype_eq, hpolynomial]
  · rw [energyOfState?, energyOfState?, if_neg hs, if_neg (hn ▸ hs)]

end Copies

theorem WellFormed.copies_assemble [DecidableEq V] [Exact α] (h : m.WellFormed) :
    Copies m ((assemble m.vartype m.linear.entries m.quadraticTerms).addOffset m.offset) where
  vartype_eq := vartype_assemble ..
  linear_eq := by
    show (assemble m.vartype m.linear.entries m.quadraticTerms).linear = m.linear
    rw [h.assemble_eq_addCouplings, linear_addCouplings, linear_addVariables_entries]
  interactions_eq := h.interactions_assemble m.vartype
  offset_eq := by
    show (assemble m.vartype m.linear.entries m.quadraticTerms).offset + m.offset = m.offset
    rw [h.assemble_eq_addCouplings, offset_addCouplings, offset_addVariables]
    exact zero_add _

end BinaryQuadratic.Model

import BinaryQuadratic.Proofs.Model.Polynomial
import BinaryQuadratic.Proofs.Annealing.Progress

/-! The incrementally kept fields of a chain are the local fields of its current state, and a
proposal decides on the exact change of energy. Both are kept by every proposal. -/

namespace BinaryQuadratic.Annealing

open Coefficient Finset Randomness

variable {V α γ : Type} [Exact α] {m : Model V α}

theorem step_ofModel (m : Model V α) (b : Bool) :
    (Couplings.ofModel m).step b =
      ((m.vartype.value (!b) : Int) : α) - ((m.vartype.value b : Int) : α) := by
  rw [Couplings.step, Couplings.ofModel]
  cases m.vartype <;> cases b <;> norm_num [Vartype.value, Vartype.width]

theorem field_update {i : Nat} (hi : i < m.numVariables) (y : Nat → α) (z : α) (k : Nat) :
    m.field (Function.update y i z) k = m.field y k + m.weight k i * (z - y i) := by
  rw [Model.field, Model.field, sum_mul_update hi, add_assoc]

section Pull

variable {s : PackedState} {t : Vartype}

theorem addPull?_eq (hs : s.Fits) {row : List (Nat × α)} (h : ∀ p ∈ row, p.1 < s.len) (f : α) :
    Couplings.addPull? t s row f =
      some (f + (row.map fun p => p.2 * s.coordinate t p.1).sum) := by
  induction row generalizing f with
  | nil => simp [Couplings.addPull?]
  | cons p row ih =>
    rw [Couplings.addPull?, hs.get?_eq (h p (by simp)), List.map_cons, List.sum_cons, ← add_assoc]
    exact ih (fun q hq => h q (List.mem_cons_of_mem _ hq)) _

theorem fieldsFrom?_eq (hs : s.Fits) {rows : List (List (Nat × α) × α)}
    (h : ∀ r ∈ rows, ∀ p ∈ r.1, p.1 < s.len) :
    Couplings.fieldsFrom? t s rows =
      some (rows.map fun r => r.2 + (r.1.map fun p => p.2 * s.coordinate t p.1).sum) := by
  induction rows with
  | nil => rfl
  | cons r rows ih =>
    rw [Couplings.fieldsFrom?, addPull?_eq hs (h r (by simp)),
      ih fun r' hr => h r' (List.mem_cons_of_mem _ hr)]
    rfl

end Pull

def Couplings.fieldAt? (c : Couplings α) (s : PackedState) (k : Nat) : Option α := do
  let h ← c.biases[k]?
  let row ← c.neighbors[k]?
  pure (h + (row.map fun p => p.2 * s.coordinate c.vartype p.1).sum)

theorem fieldAt?_ofModel (hm : m.WellFormed) (s : PackedState) {k : Nat}
    (hk : k < m.numVariables) :
    (Couplings.ofModel m).fieldAt? s k = some (m.field (s.coordinate m.vartype) k) := by
  obtain ⟨row, hrow⟩ : ∃ row, m.adjacency[k]? = some row :=
    ⟨_, List.getElem?_eq_getElem (hm.length_adjacency ▸ hk)⟩
  have hsum := hm.sum_row hrow (f := fun j w => w * s.coordinate m.vartype j) (by simp)
  have hb : (Couplings.ofModel m).biases[k]? = some (m.bias k) := by
    simpa [Couplings.ofModel] using Model.getElem?_biases hk
  rw [Couplings.fieldAt?, hb, neighbors_ofModel, hrow]
  exact congrArg some (congrArg (m.bias k + ·) hsum)

/-- The chain belongs to the model, and its fields are those of its state. -/
structure Chain.Tracks (m : Model V α) (chain : Chain α γ) : Prop where
  fits : chain.state.Fits
  len_state : chain.state.len = m.numVariables
  size_fields : chain.fields.size = m.numVariables
  fields_eq : ∀ k < m.numVariables,
    chain.fields.getD k 0 = m.field (chain.state.coordinate m.vartype) k

theorem tracks_localFields (hm : m.WellFormed) {s : PackedState} (hs : s.Fits)
    (hlen : s.len = m.numVariables) (g : γ) :
    ∃ fields, (Couplings.ofModel m).localFields? s = some fields ∧
      Chain.Tracks m ⟨s, fields, g⟩ := by
  set rows := (m.adjacency.map OrderedMap.entries).zip m.biases with hrows
  have hmem : ∀ r ∈ rows, ∀ p ∈ r.1, p.1 < s.len := fun r hr p hp =>
    hlen ▸ Couplings.lt_of_mem_rows hm hr hp
  let fields := rows.map fun r => r.2 + (r.1.map fun p => p.2 * s.coordinate m.vartype p.1).sum
  have heq : (Couplings.ofModel m).localFields? s = some fields.toArray := by
    simp only [Couplings.localFields?, Couplings.ofModel, ← hrows, fieldsFrom?_eq hs hmem]
    rfl
  refine ⟨fields.toArray, heq, hs, hlen, ?_, fun k hk => ?_⟩
  · simp [fields, hrows, hm.length_adjacency]
  · have hk' : k < rows.length := by simpa [hrows, hm.length_adjacency] using hk
    have hfield := fieldAt?_ofModel hm s hk
    simp only [Couplings.fieldAt?, Couplings.ofModel, List.getElem?_toArray] at hfield
    obtain ⟨b, hb, hfield⟩ := Option.bind_eq_some_iff.1 hfield
    obtain ⟨row, hrow, hfield⟩ := Option.bind_eq_some_iff.1 hfield
    have hr : rows[k]? = some (row, b) := List.getElem?_zip_eq_some.2 ⟨hrow, hb⟩
    simp only [fields, Array.getD_eq_getD_getElem?, List.getElem?_toArray, List.getElem?_map, hr]
    exact Option.some.inj hfield

theorem shiftFields?_eq (step : α) {row : List (Nat × α)} {fields : Array α}
    (h : ∀ p ∈ row, p.1 < fields.size) :
    ∃ r, shiftFields? step row fields = some r ∧ r.size = fields.size ∧
      ∀ k < fields.size, r.getD k 0 =
        fields.getD k 0 + (row.map fun p => if p.1 = k then p.2 * step else 0).sum := by
  induction row generalizing fields with
  | nil => exact ⟨fields, rfl, rfl, by simp⟩
  | cons p row ih =>
    obtain ⟨j, w⟩ := p
    have hj : j < fields.size := h (j, w) (by simp)
    have hrest : ∀ q ∈ row, q.1 < (fields.set j (fields[j] + w * step)).size := fun q hq => by
      simpa using h q (List.mem_cons_of_mem _ hq)
    obtain ⟨r, hr, hsize, hget⟩ := ih hrest
    rw [Array.size_set] at hsize hget
    refine ⟨r, by rw [shiftFields?, dif_pos hj, hr], hsize, fun k hk => ?_⟩
    rw [hget k hk, List.map_cons, List.sum_cons, ← add_assoc]
    congr 1
    by_cases hjk : j = k
    · subst hjk
      simp [hj]
    · simp [hk, hjk]

namespace Chain.Tracks

variable {chain : Chain α γ} {i : Nat}

theorem get?_state (h : chain.Tracks m) (hi : i < m.numVariables) :
    chain.state.get? i = some (chain.state.bit i) := h.fits.get?_eq (h.len_state ▸ hi)

theorem getElem?_fields (h : chain.Tracks m) (hi : i < m.numVariables) :
    chain.fields[i]? = some (m.field (chain.state.coordinate m.vartype) i) := by
  have hlt : i < chain.fields.size := h.size_fields ▸ hi
  have := h.fields_eq i hi
  simp only [Array.getD_eq_getD_getElem?, Array.getElem?_eq_getElem hlt, Option.getD_some] at this
  rw [Array.getElem?_eq_getElem hlt, this]

theorem fields_eq_fieldAt? (hm : m.WellFormed) (h : chain.Tracks m) (hi : i < m.numVariables) :
    chain.fields[i]? = (Couplings.ofModel m).fieldAt? chain.state i := by
  rw [h.getElem?_fields hi, fieldAt?_ofModel hm _ hi]

theorem step_mul_field (hm : m.WellFormed) (h : chain.Tracks m) (hi : i < m.numVariables) :
    (Couplings.ofModel m).step (chain.state.bit i) *
        m.field (chain.state.coordinate m.vartype) i =
      m.energyAt (chain.state.toggle i) - m.energyAt chain.state := by
  rw [hm.energyAt_toggle h.fits h.len_state hi, step_ofModel, PackedState.coordinate]

theorem energyChange?_eq (hm : m.WellFormed) (h : chain.Tracks m) (hi : i < m.numVariables) :
    energyChange? (.ofModel m) chain i =
      some (m.energyAt (chain.state.toggle i) - m.energyAt chain.state) := by
  rw [energyChange?, h.get?_state hi, h.getElem?_fields hi, ← h.step_mul_field hm hi]
  rfl

theorem flip?_eq (hm : m.WellFormed) (h : chain.Tracks m) (hi : i < m.numVariables) :
    ∃ next, flip? (.ofModel m) chain i (chain.state.bit i) = some next ∧ next.Tracks m ∧
      next.state = chain.state.toggle i ∧ next.random = chain.random := by
  obtain ⟨row, hrow⟩ : ∃ row, m.adjacency[i]? = some row :=
    ⟨_, List.getElem?_eq_getElem (hm.length_adjacency ▸ hi)⟩
  have hkeys : ∀ p ∈ row.entries, p.1 < chain.fields.size := fun p hp =>
    h.size_fields ▸ (hm.mem_keys hrow (List.mem_map_of_mem hp)).1
  obtain ⟨fields, hfields, hsize, hget⟩ :=
    shiftFields?_eq ((Couplings.ofModel m).step (chain.state.bit i)) hkeys
  have hstate : i < chain.state.len := h.len_state ▸ hi
  refine ⟨⟨chain.state.toggle i, fields, chain.random⟩, ?_, ⟨h.fits.toggle i, h.len_state,
    hsize.trans h.size_fields, fun k hk => ?_⟩, rfl, rfl⟩
  · simp only [flip?, neighbors_ofModel, hrow, Option.map_some, h.fits.flip?_eq hstate, hfields]
  · -- the row of `i` holds the weights that `i` has in the fields of the others, by symmetry
    rw [hget k (h.size_fields ▸ hk), h.fields_eq k hk, Model.coordinate_toggle h.fits hstate,
      field_update hi, hm.sum_row hrow (f := fun j w => if j = k then
        w * (Couplings.ofModel m).step (chain.state.bit i) else 0) (by simp),
      Finset.sum_ite_eq' (range m.numVariables), if_pos (Finset.mem_range.2 hk),
      hm.weight_comm i k, step_ofModel, PackedState.coordinate]

theorem propose?_eq [Generator γ] (hm : m.WellFormed) (h : chain.Tracks m)
    (hi : i < m.numVariables) (beta : α) :
    let decision := accepts beta (m.energyAt (chain.state.toggle i) - m.energyAt chain.state)
      chain.random
    ∃ next, propose? (.ofModel m) beta chain i = some next ∧ next.Tracks m ∧
      next.state = (if decision.1 then chain.state.toggle i else chain.state) ∧
      next.random = decision.2 := by
  intro decision
  have hpropose : propose? (.ofModel m) beta chain i =
      if decision.1 then
        flip? (.ofModel m) { chain with random := decision.2 } i (chain.state.bit i)
      else some { chain with random := decision.2 } := by
    obtain ⟨state, fields, random⟩ := chain
    simp only [propose?, h.get?_state hi, h.getElem?_fields hi, h.step_mul_field hm hi]
    split
    · next hd => simp only [decision, hd, if_true]
    · next hd => simp only [decision, hd, Bool.false_eq_true, if_false]
  -- a draw moves neither the state nor the fields
  have hchain : ({ chain with random := decision.2 } : Chain α γ).Tracks m :=
    ⟨h.fits, h.len_state, h.size_fields, h.fields_eq⟩
  by_cases hd : decision.1 = true
  · rw [if_pos hd] at hpropose
    rw [if_pos hd]
    obtain ⟨next, hnext, htracks, hstate, hrandom⟩ := hchain.flip?_eq hm hi
    exact ⟨next, hpropose.trans hnext, htracks, hstate, hrandom⟩
  · rw [if_neg hd] at hpropose
    rw [if_neg hd]
    exact ⟨_, hpropose, hchain, rfl, rfl⟩

end Chain.Tracks

end BinaryQuadratic.Annealing

import BinaryQuadratic.Annealing.Annealer
import BinaryQuadratic.Proofs.Model.Energy
import BinaryQuadratic.Proofs.PackedState

/-! Whatever the coefficients and the random numbers are, annealing a model comes to an end: every
position that is read or moved exists, and the state keeps its length and its clear padding. -/

namespace BinaryQuadratic

open Coefficient Randomness

variable {V α γ : Type} {m : Model V α}

namespace Annealing

theorem neighbors_ofModel (m : Model V α) (i : Nat) :
    (Couplings.ofModel m).neighbors[i]? = m.adjacency[i]?.map OrderedMap.entries := by
  simp [Couplings.ofModel]

namespace Couplings

@[simp] theorem size_ofModel (m : Model V α) : (ofModel m).size = m.numVariables := by
  simp [size, ofModel]

theorem lt_of_mem_rows (hm : m.WellFormed) {r : List (Nat × α) × α}
    (hr : r ∈ (m.adjacency.map OrderedMap.entries).zip m.biases) {p : Nat × α} (hp : p ∈ r.1) :
    p.1 < m.numVariables := by
  obtain ⟨row, hrow, he⟩ := List.mem_map.1 (List.of_mem_zip hr).1
  exact hm.lt_of_mem_keys hrow (List.mem_map_of_mem (he ▸ hp))

end Couplings

end Annealing

variable [Coefficient α]

namespace Annealing

namespace Couplings

variable {s : PackedState} {t : Vartype}

theorem exists_addPull? (hs : s.Fits) {row : List (Nat × α)} (h : ∀ p ∈ row, p.1 < s.len) (f : α) :
    ∃ f', addPull? t s row f = some f' := by
  induction row generalizing f with
  | nil => exact ⟨f, rfl⟩
  | cons p row ih =>
    rw [addPull?, hs.get?_eq (h p (by simp))]
    exact ih (fun q hq => h q (List.mem_cons_of_mem _ hq)) _

theorem exists_fieldsFrom? (hs : s.Fits) {rows : List (List (Nat × α) × α)}
    (h : ∀ r ∈ rows, ∀ p ∈ r.1, p.1 < s.len) :
    ∃ fs, fieldsFrom? t s rows = some fs ∧ fs.length = rows.length := by
  induction rows with
  | nil => exact ⟨[], rfl, rfl⟩
  | cons r rows ih =>
    obtain ⟨f, hf⟩ := exists_addPull? (t := t) hs (h r (by simp)) r.2
    obtain ⟨fs, hfs, hlen⟩ := ih fun r' hr => h r' (List.mem_cons_of_mem _ hr)
    refine ⟨f :: fs, ?_, by simp [hlen]⟩
    rw [fieldsFrom?, hf, hfs]
    rfl

theorem exists_localFields? (hm : m.WellFormed) (hs : s.Fits) (hlen : s.len = m.numVariables) :
    ∃ fields, (ofModel m).localFields? s = some fields ∧ fields.size = m.numVariables := by
  have hrows : ∀ r ∈ (m.adjacency.map OrderedMap.entries).zip m.biases, ∀ p ∈ r.1,
      p.1 < s.len := fun r hr p hp => hlen ▸ lt_of_mem_rows hm hr hp
  obtain ⟨fs, hfs, hfslen⟩ := exists_fieldsFrom? (t := m.vartype) hs hrows
  refine ⟨fs.toArray, ?_, by simp [hfslen, hm.length_adjacency]⟩
  rw [localFields?]
  exact congrArg (Option.map _) hfs

end Couplings

theorem exists_shiftFields? (step : α) {row : List (Nat × α)} {fields : Array α}
    (h : ∀ p ∈ row, p.1 < fields.size) :
    ∃ r, shiftFields? step row fields = some r ∧ r.size = fields.size := by
  induction row generalizing fields with
  | nil => exact ⟨fields, rfl, rfl⟩
  | cons p row ih =>
    have hj : p.1 < fields.size := h p (by simp)
    have hrow : ∀ q ∈ row, q.1 < (fields.set p.1 (fields[p.1] + p.2 * step)).size := fun q hq => by
      simpa using h q (List.mem_cons_of_mem _ hq)
    obtain ⟨r, hr, hsize⟩ := ih hrow
    refine ⟨r, ?_, by simpa using hsize⟩
    rw [shiftFields?, dif_pos hj, hr]

namespace Chain

section Invariant

variable [Generator γ] {P : Chain α γ → Prop} {c : Couplings α} {order : List Nat}
  (hstep : ∀ beta, ∀ i ∈ order, ∀ chain : Chain α γ, P chain →
    ∃ next, propose? c beta chain i = some next ∧ P next)

include hstep

theorem proposeAll?_invariant (beta : α) {chain : Chain α γ} (h : P chain) :
    ∃ next, proposeAll? c beta order chain = some next ∧ P next := by
  induction order generalizing chain with
  | nil => exact ⟨chain, rfl, h⟩
  | cons i rest ih =>
    obtain ⟨next, hnext, hP⟩ := hstep beta i (by simp) chain h
    rw [proposeAll?, hnext]
    exact ih (fun beta j hj => hstep beta j (List.mem_cons_of_mem _ hj)) hP

theorem sweeps?_invariant (beta : α) (n : Nat) {chain : Chain α γ} (h : P chain) :
    ∃ next, sweeps? c beta order n chain = some next ∧ P next := by
  induction n generalizing chain with
  | zero => exact ⟨chain, rfl, h⟩
  | succ n ih =>
    obtain ⟨next, hnext, hP⟩ := proposeAll?_invariant hstep beta h
    rw [sweeps?, hnext]
    exact ih hP

/-- What every proposal keeps, a whole run keeps. -/
theorem cool?_invariant (n : Nat) (schedule : List α) {chain : Chain α γ} (h : P chain) :
    ∃ last, cool? c order n schedule chain = some last ∧ P last := by
  induction schedule generalizing chain with
  | nil => exact ⟨chain, rfl, h⟩
  | cons beta schedule ih =>
    obtain ⟨next, hnext, hP⟩ := sweeps?_invariant hstep beta n h
    rw [cool?, hnext]
    exact ih hP

end Invariant

structure Suits (m : Model V α) (chain : Chain α γ) : Prop where
  canonical : chain.state.Canonical
  len_state : chain.state.len = m.numVariables
  size_fields : chain.fields.size = m.numVariables

theorem Suits.exists_flip? [Generator γ] (hm : m.WellFormed) {chain : Chain α γ}
    (h : chain.Suits m) {i : Nat} (hi : i < m.numVariables) (b : Bool) :
    ∃ next, flip? (.ofModel m) chain i b = some next ∧ next.Suits m := by
  obtain ⟨row, hrow⟩ : ∃ row, m.adjacency[i]? = some row :=
    ⟨_, List.getElem?_eq_getElem (hm.length_adjacency ▸ hi)⟩
  have hneighbors : (Couplings.ofModel m).neighbors[i]? = some row.entries := by
    rw [neighbors_ofModel, hrow, Option.map_some]
  have hentries : ∀ p ∈ row.entries, p.1 < chain.fields.size := fun p hp =>
    h.size_fields ▸ (hm.mem_keys hrow (List.mem_map_of_mem hp)).1
  have hlen : i < chain.state.len := h.len_state ▸ hi
  obtain ⟨fields, hfields, hsize⟩ := exists_shiftFields? ((Couplings.ofModel m).step b) hentries
  refine ⟨⟨chain.state.toggle i, fields, chain.random⟩, ?_, h.canonical.toggle hlen, h.len_state,
    hsize.trans h.size_fields⟩
  simp only [flip?, hneighbors, h.canonical.fits.flip?_eq hlen, hfields]

theorem Suits.exists_propose? [Generator γ] (hm : m.WellFormed) {chain : Chain α γ}
    (h : chain.Suits m) {i : Nat} (hi : i < m.numVariables) (beta : α) :
    ∃ next, propose? (.ofModel m) beta chain i = some next ∧ next.Suits m := by
  have hlen : i < chain.state.len := h.len_state ▸ hi
  have hfield : i < chain.fields.size := h.size_fields ▸ hi
  simp only [propose?, h.canonical.fits.get?_eq hlen, Array.getElem?_eq_getElem hfield]
  split
  · refine exists_flip? hm ?_ hi _
    exact ⟨h.canonical, h.len_state, h.size_fields⟩
  · exact ⟨_, rfl, h.canonical, h.len_state, h.size_fields⟩

end Chain

theorem exists_anneal? [Generator γ] (hm : m.WellFormed) {s : PackedState} (hs : s.Canonical)
    (hlen : s.len = m.numVariables) (schedule : List α) (sweepsPerBeta : Nat) (g : γ) :
    ∃ s' g', anneal? (.ofModel m) schedule sweepsPerBeta s g = some (s', g') ∧ s'.Canonical ∧
      s'.len = m.numVariables := by
  rw [anneal?, if_pos (hlen.trans (Couplings.size_ofModel m).symm)]
  obtain ⟨fields, hfields, hfieldsize⟩ := Couplings.exists_localFields? hm hs.fits hlen
  have hstep : ∀ beta, ∀ i ∈ List.range s.len, ∀ chain : Chain α γ, chain.Suits m →
      ∃ next, Chain.propose? (.ofModel m) beta chain i = some next ∧ next.Suits m :=
    fun beta i hi chain h => h.exists_propose? hm (hlen ▸ List.mem_range.1 hi) beta
  have hstart : Chain.Suits m ⟨s, fields, g⟩ := ⟨hs, hlen, hfieldsize⟩
  obtain ⟨last, hlast, hsuits⟩ := Chain.cool?_invariant hstep sweepsPerBeta schedule hstart
  refine ⟨last.state, last.random, ?_, hsuits.canonical, hsuits.len_state⟩
  simp only [hfields, hlast, Option.map_some]

end Annealing

end BinaryQuadratic

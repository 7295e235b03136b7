import BinaryQuadratic.Coefficient.Binary64
import BinaryQuadratic.Proofs.Model.Interactions
import BinaryQuadratic.Proofs.Model.Labels

/-! The two halves of a model, its labels and its rows, fit together after every sequence of
operations, whatever the coefficients are: no law of their arithmetic is used. -/

namespace BinaryQuadratic.Model

variable {V α : Type} [DecidableEq V] [Coefficient α] {m : Model V α}

theorem WellFormed.indexOf?_toVartype (h : m.WellFormed) (t : Vartype) (v : V) :
    (m.toVartype t).indexOf? v = m.indexOf? v := by
  refine Option.ext fun i => ?_
  rw [indexOf?_eq_some_iff, indexOf?_eq_some_iff, h.labels_toVartype]

theorem apply_self_interaction (m : Model V α) (u : V) (b : α) :
    (History.Operation.addInteraction u u b).apply m = (m, some (.selfInteraction u)) := by
  rw [History.Operation.apply, addInteraction, if_pos rfl]

/-- The representation of a model after any sequence of operations, those that fail included. Each
variable has a row, the rows store each pair at both ends with one coefficient and no variable with
itself, and no operation moves a variable. So a pair is looked up alike in both directions, and the
list of interactions has a label at both ends of each item and every interacting pair once, the
earlier variable first. -/
theorem Reachable.representation (hm : m.Reachable) :
    m.adjacency.length = m.numVariables ∧
    (∀ (i : Nat) row, m.adjacency[i]? = some row → ∀ j ∈ row.keys, j < m.numVariables ∧ j ≠ i) ∧
    (∀ (i j : Nat) (b : α), (∃ row, m.adjacency[i]? = some row ∧ (j, b) ∈ row.entries) ↔
      ∃ row, m.adjacency[j]? = some row ∧ (i, b) ∈ row.entries) ∧
    (∀ (o : History.Operation V α) v i,
      m.indexOf? v = some i → (o.apply m).1.indexOf? v = some i) ∧
    (∀ t v, (m.toVartype t).indexOf? v = m.indexOf? v) ∧
    (∀ u b, (History.Operation.addInteraction u u b).apply m =
      (m, some (.selfInteraction u))) ∧
    (∀ u v, m.quadratic? u v = m.quadratic? v u) ∧
    (∀ e ∈ m.interactions, ∃ u v, m.labelAt? e.1 = some u ∧ m.labelAt? e.2.1 = some v) ∧
    (∀ u v b, (u, v, b) ∈ m.quadraticTerms ↔ m.quadratic? u v = some b ∧
      ∃ i j, m.indexOf? u = some i ∧ m.indexOf? v = some j ∧ i < j) ∧
    m.interactingPairs.Nodup ∧
    m.numInteractions = m.quadraticTerms.length := by
  have hw := hm.wellFormed
  refine ⟨hw.length_adjacency, fun i row hrow j hj => hw.mem_keys hrow hj, hw.mem_row_comm,
    fun o v i => (History.mentions_apply m o).indexOf?_eq, hw.indexOf?_toVartype,
    m.apply_self_interaction, hw.quadratic?_comm, fun e he => hw.exists_labels he,
    fun u v b => mem_quadraticTerms_iff_quadratic?, m.nodup_interactingPairs, ?_⟩
  rw [hw.numInteractions_eq, hw.length_quadraticTerms]

theorem representation_nan_and_infinity :
    let m : Model Nat Float :=
      ((((empty .spin).couple 4 2 (0 / 0)).addInteractions
        [(2, 9, 1 / 0), (9, 9, 1), (9, 4, 1)]).1.toVartype .binary).scale (-(1 / 0))
    m.Reachable ∧ m.adjacency.length = m.numVariables ∧
      (∀ u v, m.quadratic? u v = m.quadratic? v u) ∧ m.interactingPairs = [(4, 2), (2, 9)] ∧
      m.interactingPairs.Nodup ∧ m.numInteractions = m.quadraticTerms.length := by
  intro m
  have hm : m.Reachable :=
    .scale _ (.toVartype _ (.addInteractions _
      (.addInteraction (.empty .spin) (u := 4) (v := 2) (b := 0 / 0) rfl)))
  obtain ⟨hrows, -, -, -, -, -, hlookup, -, -, hnodup, hcount⟩ := hm.representation
  exact ⟨hm, hrows, hlookup, rfl, hnodup, hcount⟩

end BinaryQuadratic.Model

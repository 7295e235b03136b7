import BinaryQuadratic.Proofs.Annealing.Field
import BinaryQuadratic.Annealing.Annealer

/-! A whole run of the annealer, proposal by proposal. It does what the rule of Metropolis does
with energies of whole states, and the accepted changes add up to the change of energy. -/

namespace BinaryQuadratic.Annealing

open Coefficient Randomness

variable {V α γ : Type} [Generator γ]

def proposals (order : List Nat) (sweepsPerBeta : Nat) (schedule : List α) : List (α × Nat) :=
  schedule.flatMap fun beta =>
    (List.replicate sweepsPerBeta order).flatten.map fun i => (beta, i)

theorem mem_order_of_mem_proposals {order : List Nat} {sweepsPerBeta : Nat} {schedule : List α}
    {p : α × Nat} (h : p ∈ proposals order sweepsPerBeta schedule) : p.2 ∈ order := by
  obtain ⟨beta, -, hp⟩ := List.mem_flatMap.1 h
  obtain ⟨i, hi, rfl⟩ := List.mem_map.1 hp
  obtain ⟨sweep, hsweep, hi⟩ := List.mem_flatten.1 hi
  exact (List.eq_of_mem_replicate hsweep) ▸ hi

theorem mem_schedule_of_mem_proposals {order : List Nat} {sweepsPerBeta : Nat} {schedule : List α}
    {p : α × Nat} (h : p ∈ proposals order sweepsPerBeta schedule) : p.1 ∈ schedule := by
  obtain ⟨beta, hbeta, hp⟩ := List.mem_flatMap.1 h
  obtain ⟨i, -, rfl⟩ := List.mem_map.1 hp
  exact hbeta

theorem proposals_nil (sweepsPerBeta : Nat) (schedule : List α) :
    proposals [] sweepsPerBeta schedule = [] := by
  simp [proposals]

namespace Chain

variable [Coefficient α]

def run? (c : Couplings α) (ps : List (α × Nat)) (chain : Chain α γ) : Option (Chain α γ) :=
  ps.foldlM (fun chain p => propose? c p.1 chain p.2) chain

theorem run?_append (c : Couplings α) (ps qs : List (α × Nat)) (chain : Chain α γ) :
    run? c (ps ++ qs) chain = (run? c ps chain).bind (run? c qs) := List.foldlM_append

theorem proposeAll?_eq_run? (c : Couplings α) (beta : α) (order : List Nat) (chain : Chain α γ) :
    proposeAll? c beta order chain = run? c (order.map fun i => (beta, i)) chain := by
  induction order generalizing chain with
  | nil => rfl
  | cons i rest ih =>
    rw [proposeAll?, run?, List.map_cons, List.foldlM_cons]
    cases propose? c beta chain i with
    | none => rfl
    | some next => exact ih next

theorem sweeps?_eq_run? (c : Couplings α) (beta : α) (order : List Nat) (n : Nat)
    (chain : Chain α γ) :
    sweeps? c beta order n chain =
      run? c ((List.replicate n order).flatten.map fun i => (beta, i)) chain := by
  induction n generalizing chain with
  | zero => rfl
  | succ n ih =>
    rw [sweeps?, List.replicate_succ, List.flatten_cons, List.map_append, run?_append,
      proposeAll?_eq_run?]
    cases run? c (order.map fun i => (beta, i)) chain with
    | none => rfl
    | some next => exact ih next

theorem cool?_eq_run? (c : Couplings α) (order : List Nat) (n : Nat) (schedule : List α)
    (chain : Chain α γ) :
    cool? c order n schedule chain = run? c (proposals order n schedule) chain := by
  induction schedule generalizing chain with
  | nil => rfl
  | cons beta schedule ih =>
    rw [cool?, proposals, List.flatMap_cons, run?_append, sweeps?_eq_run?]
    cases run? c ((List.replicate n order).flatten.map fun i => (beta, i)) chain with
    | none => rfl
    | some next => exact ih next

end Chain

theorem anneal?_eq_run? [Coefficient α] {c : Couplings α} {s : PackedState} {fields : Array α}
    (hlen : s.len = c.size) (hfields : c.localFields? s = some fields) (schedule : List α)
    (sweepsPerBeta : Nat) (g : γ) :
    anneal? c schedule sweepsPerBeta s g =
      (Chain.run? c (proposals (List.range s.len) sweepsPerBeta schedule) ⟨s, fields, g⟩).map
        fun last => (last.state, last.random) := by
  rw [anneal?, if_pos hlen]
  simp only [hfields, Chain.cool?_eq_run?]

variable [Exact α] {m : Model V α}

/-- The rule of Metropolis on states with given energies, without any fields. -/
def metropolis (energy : PackedState → α) : List (α × Nat) → PackedState × γ → PackedState × γ
  | [], x => x
  | (beta, i) :: rest, (s, g) =>
    let (accepted, g) := accepts beta (energy (s.toggle i) - energy s) g
    metropolis energy rest (if accepted then s.toggle i else s, g)

theorem Chain.Tracks.run?_eq (hm : m.WellFormed) {chain : Chain α γ} (h : chain.Tracks m)
    {ps : List (α × Nat)} (hps : ∀ p ∈ ps, p.2 < m.numVariables) :
    ∃ last, Chain.run? (.ofModel m) ps chain = some last ∧ last.Tracks m ∧
      (last.state, last.random) = metropolis m.energyAt ps (chain.state, chain.random) := by
  induction ps generalizing chain with
  | nil => exact ⟨chain, rfl, h, rfl⟩
  | cons p ps ih =>
    obtain ⟨next, hnext, htracks, hstate, hrandom⟩ := h.propose?_eq hm (hps p (by simp)) p.1
    obtain ⟨last, hlast, hlasttracks, heq⟩ :=
      ih htracks fun q hq => hps q (List.mem_cons_of_mem _ hq)
    refine ⟨last, ?_, hlasttracks, ?_⟩
    · rw [Chain.run?, List.foldlM_cons, hnext]
      exact hlast
    · rw [heq, hstate, hrandom, metropolis]

/-- Annealing is the rule of Metropolis with the energies of the model. -/
theorem anneal?_eq_metropolis (hm : m.WellFormed) {s : PackedState} (hs : s.Fits)
    (hlen : s.len = m.numVariables) (schedule : List α) (sweepsPerBeta : Nat) (g : γ) :
    anneal? (.ofModel m) schedule sweepsPerBeta s g =
      some (metropolis m.energyAt
        (proposals (List.range m.numVariables) sweepsPerBeta schedule) (s, g)) := by
  obtain ⟨fields, hfields, htracks⟩ := tracks_localFields hm hs hlen g
  have hps : ∀ p ∈ proposals (List.range m.numVariables) sweepsPerBeta schedule,
      p.2 < m.numVariables := fun p hp => List.mem_range.1 (mem_order_of_mem_proposals hp)
  obtain ⟨last, hlast, -, heq⟩ := htracks.run?_eq hm hps
  rw [anneal?_eq_run? (hlen.trans (Couplings.size_ofModel m).symm) hfields, hlen, hlast, ← heq]
  rfl

end BinaryQuadratic.Annealing

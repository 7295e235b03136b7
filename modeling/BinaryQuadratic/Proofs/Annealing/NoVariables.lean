import BinaryQuadratic.Proofs.Annealing.Metropolis
import BinaryQuadratic.Proofs.Annealing.MoreReads

/-! Models without variables. They have a single state, and every read ends in it: there are no bits
to draw, no variables to propose and no terms beside the offset. Reads that all end in one state are
merged into the record of one solution with as many occurrences, so that none of them has to be
made. -/

namespace BinaryQuadratic

open Coefficient Randomness

namespace SampleSet

variable {V α : Type} {m : Model V α}

theorem tally_tally (seen : OrderedMap PackedState (α × UInt64)) (s : PackedState) (e : α)
    (x y : Option α) (k n : UInt64) :
    tally (tally seen ⟨s, x, k⟩ e) ⟨s, y, n⟩ e = tally seen ⟨s, x, k + n⟩ e := by
  have hcount : ∀ p : α × UInt64, (p.1, p.2 + k + n) = (p.1, p.2 + (k + n)) := fun p => by
    rw [UInt64.add_assoc]
  exact (OrderedMap.adjust_adjust seen s _ _ _ _).trans
    (congrArg (OrderedMap.adjust seen s (e, 0)) (funext hcount))

variable [Coefficient α]

theorem tallyAll?_replicate (seen : OrderedMap PackedState (α × UInt64)) (s : PackedState) (e : α)
    (k : UInt64) (n : Nat) :
    tallyAll? m (List.replicate n ⟨s, some e, 1⟩) (tally seen ⟨s, some e, k⟩ e) =
      some (tally seen ⟨s, some e, k + .ofNat n⟩ e) := by
  induction n generalizing k with
  | zero => rw [show UInt64.ofNat 0 = 0 from rfl, UInt64.add_zero]; rfl
  | succ n ih =>
    rw [List.replicate_succ, tallyAll?, Solution.energyIn?]
    simp only
    rw [tally_tally, ih, UInt64.add_assoc, Nat.add_comm n 1, UInt64.ofNat_add]
    rfl

theorem ofSolutions?_replicate (s : PackedState) (e : α) {n : UInt64} (hn : n ≠ 0) :
    ofSolutions? m (List.replicate n.toNat ⟨s, some e, 1⟩) = ofSolutions? m [⟨s, some e, n⟩] := by
  obtain ⟨k, hk⟩ := Nat.exists_eq_succ_of_ne_zero fun h => hn (UInt64.toNat_inj.1 h)
  have hsum : 1 + UInt64.ofNat k = n := by
    rw [← UInt64.ofNat_toNat (x := n), hk, Nat.succ_eq_add_one, Nat.add_comm, UInt64.ofNat_add]
    rfl
  have hmerged := tallyAll?_replicate (m := m) ∅ s e 1 k
  rw [hsum] at hmerged
  rw [hk, List.replicate_succ]
  exact congrArg (Option.map _) hmerged

end SampleSet

namespace Annealing

open SampleSet

variable {V α μ γ : Type} [Coefficient α] {m : Model V α}

theorem random_zero [Generator γ] (g : γ) : (PackedState.random 0 g).1 = .zeros 0 :=
  (PackedState.canonical_random 0 g).eq_of_bits_eq (PackedState.canonical_zeros 0) rfl

theorem cool?_nil [Generator γ] (c : Couplings α) (n : Nat) (schedule : List α)
    (chain : Chain α γ) : Chain.cool? c [] n schedule chain = some chain := by
  rw [Chain.cool?_eq_run?, proposals_nil]
  rfl

section Empty

variable (hempty : m.isEmpty = true)

include hempty

omit [Coefficient α] in
theorem size_ofModel_eq_zero : (Couplings.ofModel m).size = 0 :=
  (Couplings.size_ofModel m).trans (Model.numVariables_eq_zero hempty)

theorem localFields?_zeros : (Couplings.ofModel m).localFields? (.zeros 0) = some #[] := by
  have hpairs : ((Couplings.ofModel m).neighbors.toList.zip (Couplings.ofModel m).biases.toList) =
      [] := by
    rw [Couplings.ofModel, biases_eq_nil hempty, List.zip_nil_right]
  rw [Couplings.localFields?, hpairs]
  rfl

theorem anneal?_zeros [Generator γ] (schedule : List α) (n : Nat) (g : γ) :
    anneal? (.ofModel m) schedule n (.zeros 0) g = some (.zeros 0, g) := by
  have hlen : (PackedState.zeros 0).len = (Couplings.ofModel m).size :=
    (size_ofModel_eq_zero hempty).symm
  have hnone : proposals (List.range (PackedState.zeros 0).len) n schedule = [] :=
    proposals_nil n schedule
  rw [anneal?_eq_run? hlen (localFields?_zeros hempty), hnone]
  rfl

theorem read?_eq_offset [Generator γ] (a : Annealer α) (g : γ) :
    (a.run m).read? g = some ⟨.zeros 0, some m.offset, 1⟩ := by
  have hsize : (a.run m).couplings.size = 0 := size_ofModel_eq_zero hempty
  have hanneal : anneal? (a.run m).couplings (a.run m).schedule (a.run m).sweepsPerBeta
      (.zeros 0) (PackedState.random 0 g).2 = some (.zeros 0, (PackedState.random 0 g).2) :=
    anneal?_zeros hempty _ _ _
  rw [Run.read?, hsize]
  simp only [random_zero, hanneal]
  exact congrArg (Option.map _) (energyOfState?_zeros hempty)

theorem readAll?_eq_replicate [Seedable γ] (a : Annealer α) (seeds : List UInt64) :
    Annealer.readAll? γ (a.run m) seeds =
      some (List.replicate seeds.length ⟨.zeros 0, some m.offset, 1⟩) := by
  induction seeds with
  | nil => rfl
  | cons seed rest ih =>
    rw [Annealer.readAll?, read?_eq_offset hempty, ih, List.length_cons, List.replicate_succ]
    rfl

/-- The samples of a model without variables are those that its reads would give, one by one: each
of them is annealed along the whole schedule and evaluated, and all of them together are one record
of the empty sample. -/
theorem sampleWith_without_variables [Seedable μ] [Seedable γ] {a : Annealer α}
    (hvalid : a.validate = .ok ()) (hcancel : a.isCancelled = false) {numReads : UInt64}
    (hreads : numReads ≠ 0) (fresh : UInt64) :
    ∃ r solutions set, a.prepare m = .ok r ∧
      (∀ g : γ, ∃ fields g', PackedState.random r.couplings.size g = (.zeros 0, g') ∧
        r.couplings.localFields? (.zeros 0) = some fields ∧
        Chain.cool? r.couplings (List.range r.couplings.size) r.sweepsPerBeta r.schedule
          ⟨.zeros 0, fields, g'⟩ = some ⟨.zeros 0, fields, g'⟩) ∧
      Annealer.readAll? γ r (Annealer.readSeeds μ (a.seed.getD fresh) numReads.toNat) =
        some solutions ∧ solutions.length = numReads.toNat ∧
      ofSolutions? m solutions = some set ∧ a.sampleWith μ γ m numReads fresh = .ok set ∧
      set = ⟨m.vartype, [⟨∅, m.offset, numReads⟩]⟩ := by
  have hsize : (a.run m).couplings.size = 0 := size_ofModel_eq_zero hempty
  have hsample : sampleOf m (.zeros 0) = ∅ := OrderedMap.ext List.zipWith_nil_right
  have hset := collectEmpty?_eq m numReads
  rw [hsample] at hset
  have hseeds : (Annealer.readSeeds μ (a.seed.getD fresh) numReads.toNat).length =
      numReads.toNat := length_draws _ _ _
  have hsolutions := readAll?_eq_replicate (γ := γ) hempty a
    (Annealer.readSeeds μ (a.seed.getD fresh) numReads.toNat)
  rw [hseeds] at hsolutions
  refine ⟨a.run m, _, _, by rw [Annealer.prepare, hvalid], fun g => ?_, hsolutions,
    List.length_replicate, ?_, sampleWith_eq_ok_iff.2 ⟨hreads, hvalid, hcancel, ?_⟩, rfl⟩
  · rw [hsize]
    exact ⟨#[], _, Prod.ext (random_zero g) rfl, localFields?_zeros hempty, cool?_nil _ _ _ _⟩
  · rw [ofSolutions?_replicate _ _ hreads]
    exact hset
  · rw [if_pos hempty]
    exact hset

end Empty

theorem sampleWith_without_variables_three_reads :
    let m : Model Nat Float := (Model.empty .spin).addOffset (0 / 0)
    let a : Annealer Float := { numSweeps := 4, sweepsPerBeta := 2, seed := some 7 }
    m.isEmpty = true ∧ a.validate = .ok () ∧ a.isCancelled = false ∧ (3 : UInt64) ≠ 0 ∧
      ∃ r solutions, a.prepare m = .ok r ∧
        Annealer.readAll? Pcg64 r (Annealer.readSeeds ChaCha20 7 3) = some solutions ∧
        solutions.length = 3 ∧
        ofSolutions? m solutions = some ⟨.spin, [⟨∅, m.offset, 3⟩]⟩ ∧
        a.sampleWith ChaCha20 Pcg64 m 3 0 = .ok ⟨.spin, [⟨∅, m.offset, 3⟩]⟩ := by
  intro m a
  have hempty : m.isEmpty = true := rfl
  have hvalid : a.validate = .ok () := by
    simp [a, Annealer.validate, Betas.isSchedule, Betas.validate]
  obtain ⟨r, solutions, set, hprepare, -, hsolutions, hlength, hmerged, hset, rfl⟩ :=
    sampleWith_without_variables (μ := ChaCha20) (γ := Pcg64) hempty hvalid rfl
      (by decide : (3 : UInt64) ≠ 0) 0
  exact ⟨hempty, hvalid, rfl, by decide, r, solutions, hprepare, hsolutions, hlength, hmerged, hset⟩

end Annealing

end BinaryQuadratic

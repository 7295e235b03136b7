import BinaryQuadratic.Proofs.Model.Assignment
import BinaryQuadratic.Proofs.Model.Labels
import BinaryQuadratic.Proofs.Problem.Penalty

/-! The model of a constraint problem has energy zero on the solutions of the problem, and an energy
of at least the gap on all other assignments. -/

namespace BinaryQuadratic

open Coefficient

variable {V α : Type} [Exact α]

section Pairs

variable {β : Type}

theorem mem_of_mem_pairs {l : List β} {p : β × β} (h : p ∈ pairs l) : p.1 ∈ l ∧ p.2 ∈ l := by
  induction l with
  | nil => simp [pairs] at h
  | cons b l ih =>
    rw [pairs, List.mem_append] at h
    rcases h with h | h
    · obtain ⟨c, hc, rfl⟩ := List.mem_map.1 h
      exact ⟨List.mem_cons_self, List.mem_cons_of_mem _ hc⟩
    · obtain ⟨h1, h2⟩ := ih h
      exact ⟨List.mem_cons_of_mem _ h1, List.mem_cons_of_mem _ h2⟩

theorem rel_of_mem_pairs {R : β → β → Prop} {l : List β} (hl : l.Pairwise R) {p : β × β}
    (h : p ∈ pairs l) : R p.1 p.2 := by
  induction l with
  | nil => simp [pairs] at h
  | cons b l ih =>
    obtain ⟨hb, hl⟩ := List.pairwise_cons.1 hl
    rw [pairs, List.mem_append] at h
    rcases h with h | h
    · obtain ⟨c, hc, rfl⟩ := List.mem_map.1 h
      exact hb c hc
    · exact ih hl h

theorem pairwise_zipIdx_ne {l : List β} (hl : l.Nodup) :
    l.zipIdx.Pairwise fun p q => p.1 ≠ q.1 := by
  rw [← List.pairwise_map (f := Prod.fst), List.zipIdx_map_fst]
  exact hl

end Pairs

namespace Model

variable [DecidableEq V] {m : Model V α}

theorem addPairs_eq (h : m.WellFormed) (table : Nat → α) (ps : List ((V × Nat) × (V × Nat)))
    (hps : ∀ p ∈ ps, p.1.1 ∈ m.labels ∧ p.2.1 ∈ m.labels ∧ p.1.1 ≠ p.2.1) :
    ∃ m', addPairs table ps m = .ok m' ∧ m.Adds m' fun x =>
      (ps.map fun p => pairBias table p.1.2 p.2.2 * x p.1.1 * x p.2.1).sum := by
  induction ps generalizing m with
  | nil => exact ⟨m, rfl, .refl h⟩
  | cons p ps ih =>
    obtain ⟨⟨u, i⟩, v, j⟩ := p
    obtain ⟨hu, hv, huv⟩ := hps _ List.mem_cons_self
    have hrest := fun p hp => hps p (List.mem_cons_of_mem _ hp)
    rw [addPairs]
    by_cases hq : pairBias table i j = 0
    · -- a term that is left out is zero
      obtain ⟨m', hm', hadds⟩ := ih h hrest
      refine ⟨m', by rw [if_pos (by simpa using hq), hm'], ?_⟩
      simpa [hq] using hadds
    · have hfirst := h.adds_couple hu hv huv (pairBias table i j)
      obtain ⟨m', hm', hadds⟩ := ih hfirst.wellFormed (by rwa [hfirst.labels_eq])
      refine ⟨m', ?_, hfirst.trans hadds⟩
      rw [if_neg (by simpa using hq), addInteraction_eq_ok_iff.2 ⟨huv, rfl⟩]
      exact hm'

theorem addInterpolated_eq (h : m.WellFormed) {vs : List V} (hnodup : vs.Nodup)
    (hvs : ∀ v ∈ vs, v ∈ m.labels) (table : Nat → α) :
    ∃ m', m.addInterpolated vs table = .ok m' ∧ m.Adds m' (interpolant table vs) := by
  have hfst : ∀ p ∈ vs.zipIdx, p.1 ∈ m.labels := fun p hp =>
    hvs p.1 (List.fst_mem_of_mem_zipIdx hp)
  have hoffset := h.adds_addOffset (table 0)
  have hlinear := hoffset.wellFormed.adds_addVariables
    (l := vs.zipIdx.map fun p => (p.1, table (Nat.pow 2 p.2) - table 0)) fun e he => by
      obtain ⟨p, hp, rfl⟩ := List.mem_map.1 he
      exact hoffset.labels_eq ▸ hfst p hp
  have hboth := hoffset.trans hlinear
  obtain ⟨m', hm', hpairs⟩ := addPairs_eq hboth.wellFormed table (pairs vs.zipIdx)
    fun p hp => by
      rw [hboth.labels_eq]
      obtain ⟨h1, h2⟩ := mem_of_mem_pairs hp
      exact ⟨hfst _ h1, hfst _ h2, rel_of_mem_pairs (pairwise_zipIdx_ne hnodup) hp⟩
  refine ⟨m', hm', ?_⟩
  have hall := hboth.trans hpairs
  simp only [List.map_map] at hall
  exact hall

end Model

namespace Constraint

def keptBy (c : Constraint V) (b : V → Bool) : Bool :=
  c.isSatisfiedBy (c.scope.map fun v => c.vartype.value (b v))

/-- A function of bits that is zero where constraints are kept, and at least the gap elsewhere. -/
def Penalized (gap : α) (cs : List (Constraint V)) (f : (V → α) → α) : Prop :=
  ∀ b : V → Bool,
    ((∀ c ∈ cs, c.keptBy b = true) → f (bitValues b) = 0) ∧
      ((∃ c ∈ cs, c.keptBy b = false) → gap ≤ f (bitValues b))

variable {c : Constraint V} {cs : List (Constraint V)} {gap : α} {f g : (V → α) → α}

theorem penalized_nil : Penalized gap ([] : List (Constraint V)) fun _ => 0 :=
  fun _ => ⟨fun _ => rfl, by simp⟩

theorem Penalized.nonneg (h : Penalized gap cs f) (hgap : 0 < gap) (b : V → Bool) :
    0 ≤ f (bitValues b) := by
  by_cases hall : ∀ c ∈ cs, c.keptBy b = true
  · exact ((h b).1 hall).ge
  · push Not at hall
    obtain ⟨c, hc, hb⟩ := hall
    exact hgap.le.trans ((h b).2 ⟨c, hc, by simpa using hb⟩)

theorem Penalized.cons (hf : Penalized gap [c] f) (hg : Penalized gap cs g) (hgap : 0 < gap) :
    Penalized gap (c :: cs) fun x => f x + g x := by
  intro b
  refine ⟨fun hall => ?_, ?_⟩
  · have hc : f (bitValues b) = 0 := (hf b).1 fun c' hc' => by
      rw [List.mem_singleton.1 hc']
      exact hall c List.mem_cons_self
    have hcs : g (bitValues b) = 0 := (hg b).1 fun c' hc' => hall c' (List.mem_cons_of_mem _ hc')
    show f (bitValues b) + g (bitValues b) = 0
    rw [hc, hcs, add_zero]
  · -- no penalty is negative, so that none of them cancels another one
    rintro ⟨c', hc', hb⟩
    rcases List.mem_cons.1 hc' with rfl | hc'
    · have hle : gap ≤ f (bitValues b) := (hf b).2 ⟨c', List.mem_singleton_self c', hb⟩
      exact hle.trans (le_add_of_nonneg_right (hg.nonneg hgap b))
    · have hle : gap ≤ g (bitValues b) := (hg b).2 ⟨c', hc', hb⟩
      exact hle.trans (le_add_of_nonneg_left (hf.nonneg hgap b))

theorem Separates.penalized {table : Nat → α} (h : c.Separates gap table) :
    Penalized gap [c] (interpolant table c.scope) := by
  intro b
  have hlen : (c.scope.map b).length = c.arity := List.length_map _
  have hvalue : interpolant table c.scope (bitValues b) = table (spelled (c.scope.map b)) :=
    interpolant_eq h.arity_le h.quadratic b
  have hlt : spelled (c.scope.map b) < 2 ^ c.arity := hlen ▸ spelled_lt _
  have hfeasible : c.feasible (spelled (c.scope.map b)) = c.keptBy b := by
    rw [feasible_spelled hlen, List.map_map]
    rfl
  simp only [List.mem_singleton, forall_eq, exists_eq_left, hvalue, ← hfeasible]
  exact ⟨h.eq_zero _ hlt, h.gap_le _ hlt⟩

end Constraint

namespace Model

variable [DecidableEq V] {m : Model V α} {cs : List (Constraint V)} {gap : α}

theorem exists_penalty_of_addPenalties {m' : Model V α} (hadd : m.addPenalties gap cs = .ok m') :
    ∀ c ∈ cs, ∃ table, c.penalty gap = .ok table := by
  induction cs generalizing m with
  | nil => simp
  | cons c cs ih =>
    rw [addPenalties] at hadd
    split at hadd
    · cases hadd
    next table htable =>
    split at hadd
    · cases hadd
    rintro c' (_ | ⟨_, hc'⟩)
    · exact ⟨table, htable⟩
    · exact ih hadd c' hc'

theorem addPenalties_eq (hgap : 0 < gap) (h : m.WellFormed)
    (hcs : ∀ c ∈ cs, ∀ v ∈ c.scope, v ∈ m.labels)
    (htables : ∀ c ∈ cs, ∃ table, c.penalty gap = .ok table) :
    ∃ m' f, m.addPenalties gap cs = .ok m' ∧ m.Adds m' f ∧ Constraint.Penalized gap cs f := by
  induction cs generalizing m with
  | nil => exact ⟨m, _, rfl, .refl h, Constraint.penalized_nil⟩
  | cons c cs ih =>
    obtain ⟨table, htable⟩ := htables c List.mem_cons_self
    obtain ⟨m₁, hm₁, hfirst⟩ :=
      addInterpolated_eq h c.distinct (hcs c List.mem_cons_self) table
    have hscope : ∀ c' ∈ cs, ∀ v ∈ c'.scope, v ∈ m₁.labels := fun c' hc' =>
      hfirst.labels_eq ▸ hcs c' (List.mem_cons_of_mem _ hc')
    obtain ⟨m', f, hm', hrest, hf⟩ := ih hfirst.wellFormed hscope fun c' hc' =>
      htables c' (List.mem_cons_of_mem _ hc')
    refine ⟨m', _, ?_, hfirst.trans hrest,
      (Constraint.separates_penalty hgap htable).penalized.cons hf hgap⟩
    simp only [addPenalties, htable, hm₁, hm']

end Model

section Checks

variable {s : Assignment V}

theorem mapM_valueOf {f : V → Int} {vs : List V} (h : ∀ v ∈ vs, s v = some (f v)) :
    vs.mapM (valueOf s) = .ok (vs.map f) := by
  induction vs with
  | nil => rfl
  | cons v vs ih =>
    have hv : valueOf s v = .ok (f v) := by rw [valueOf, h v List.mem_cons_self]
    rw [List.mapM_cons, hv, ih fun w hw => h w (List.mem_cons_of_mem _ hw)]
    rfl

theorem Constraint.check_eq {c : Constraint V} (hs : s.InDomain c.vartype c.scope) :
    c.check s = .ok (c.keptBy (s.bit c.vartype)) := by
  rw [check, mapM_valueOf hs.eq_value]
  rfl

theorem ConstraintProblem.violated_eq {t : Vartype} {cs : List (Constraint V)}
    (hcs : ∀ c ∈ cs, c.vartype = t ∧ s.InDomain t c.scope) :
    violated s cs = .ok (cs.filter fun c => !c.keptBy (s.bit t)) := by
  induction cs with
  | nil => rfl
  | cons c cs ih =>
    obtain ⟨rfl, hscope⟩ := hcs c List.mem_cons_self
    rw [violated, Constraint.check_eq hscope,
      ih fun c' hc' => hcs c' (List.mem_cons_of_mem _ hc'), List.filter_cons]
    cases hkept : c.keptBy (s.bit c.vartype) <;> rfl

end Checks

namespace ConstraintProblem

variable [DecidableEq V] {p : ConstraintProblem V}

inductive Built : ConstraintProblem V → Prop
  | empty (t : Vartype) : Built (.empty t)
  | addVariable {p : ConstraintProblem V} (v : V) : Built p → Built (p.addVariable v)
  | addConstraint {p p' : ConstraintProblem V} {c : Constraint V} :
    Built p → p.addConstraint c = .ok p' → Built p'

structure WellFormed (p : ConstraintProblem V) : Prop where
  vartype_eq : ∀ c ∈ p.constraints, c.vartype = p.vartype
  mem_labels : ∀ c ∈ p.constraints, ∀ v ∈ c.scope, v ∈ p.labels.keys

theorem mem_keys_add {l : OrderedSet V} {u v : V} :
    u ∈ (OrderedSet.add l v).keys ↔ u ∈ l.keys ∨ u = v := by
  rw [OrderedSet.add, OrderedMap.keys_insert]
  split <;> grind

theorem mem_keys_addAll {l : OrderedSet V} {u : V} {vs : List V} :
    u ∈ (OrderedSet.addAll l vs).keys ↔ u ∈ l.keys ∨ u ∈ vs := by
  rw [OrderedSet.keys_addAll, List.mem_eraseDups, List.mem_append]

theorem Built.wellFormed (h : p.Built) : p.WellFormed := by
  induction h with
  | empty t => exact ⟨by simp [ConstraintProblem.empty], by simp [ConstraintProblem.empty]⟩
  | addVariable v _ ih =>
    exact ⟨ih.vartype_eq, fun c hc w hw => mem_keys_add.2 (.inl (ih.mem_labels c hc w hw))⟩
  | @addConstraint p p' c _ hadd ih =>
    unfold ConstraintProblem.addConstraint at hadd
    split at hadd
    · next ht =>
      obtain rfl := Except.ok.inj hadd
      refine ⟨fun c' hc' => ?_, fun c' hc' v hv => mem_keys_addAll.2 ?_⟩
      · rcases List.mem_append.1 hc' with hc' | hc'
        · exact ih.vartype_eq c' hc'
        · rw [List.mem_singleton.1 hc', ht]
      · rcases List.mem_append.1 hc' with hc' | hc'
        · exact .inl (ih.mem_labels c' hc' v hv)
        · exact .inr (List.mem_singleton.1 hc' ▸ hv)
    · cases hadd

def keptBy (p : ConstraintProblem V) (b : V → Bool) : Bool := p.constraints.all (·.keptBy b)

omit [DecidableEq V] in
theorem WellFormed.check_eq (hp : p.WellFormed) {s : Assignment V}
    (hs : s.InDomain p.vartype p.labels.keys) :
    p.check s = .ok (p.keptBy (s.bit p.vartype)) := by
  have hscopes : ∀ c ∈ p.constraints, c.vartype = p.vartype ∧ s.InDomain p.vartype c.scope :=
    fun c hc => ⟨hp.vartype_eq c hc, fun v hv => hs v (hp.mem_labels c hc v hv)⟩
  rw [check, unsatisfied, violated_eq hscopes, keptBy]
  show Except.ok _ = Except.ok _
  congr 1
  rw [Bool.eq_iff_iff, List.isEmpty_iff, List.filter_eq_nil_iff, List.all_eq_true]
  simp

theorem exists_penalty_of_stitch {gap : α} {m : Model V α} (h : p.stitch gap = .ok m) :
    0 < gap ∧ ∀ c ∈ p.constraints, ∃ table, c.penalty gap = .ok table := by
  unfold stitch at h
  split at h
  · cases h
  next hgap =>
  cases hm₀ : (Model.blank .binary p.labels.keys).addPenalties gap p.constraints with
  | error e =>
    have hfail : Except.map (fun m : Model V α => m.toVartype p.vartype) (.error e) = .ok m :=
      hm₀ ▸ h
    cases hfail
  | ok m₀ => exact ⟨by simpa using hgap, Model.exists_penalty_of_addPenalties hm₀⟩

theorem WellFormed.stitch_eq (hp : p.WellFormed) {gap : α} (hgap : 0 < gap)
    (htables : ∀ c ∈ p.constraints, ∃ table, c.penalty gap = .ok table) :
    ∃ m f, p.stitch gap = .ok (m.toVartype p.vartype) ∧
      (Model.blank .binary p.labels.keys).Adds m f ∧
      Constraint.Penalized gap p.constraints f := by
  have hlabels : (Model.blank .binary p.labels.keys : Model V α).labels = p.labels.keys :=
    Model.labels_blank _ p.labels.nodup
  obtain ⟨m, f, hm, hadds, hf⟩ := Model.addPenalties_eq hgap
    (Model.wellFormed_blank .binary p.labels.keys)
    (fun c hc v hv => hlabels.symm ▸ hp.mem_labels c hc v hv) htables
  refine ⟨m, f, ?_, hadds, hf⟩
  rw [stitch, if_neg (by simpa using hgap)]
  exact congrArg (Except.map _) hm

/-- A stitched model has the variables of the problem, energy zero on its solutions and at least the
gap on all other assignments. If there is a solution, the ground states are the solutions. -/
theorem stitch_exact (hp : p.Built) {gap : α} {m : Model V α} (h : p.stitch gap = .ok m) :
    m.vartype = p.vartype ∧ m.labels = p.labels.keys ∧
      (∀ s : Assignment V, s.InDomain p.vartype p.labels.keys →
        ∃ kept e, p.check s = .ok kept ∧ m.energy s = .ok e ∧
          (kept = true → e = 0) ∧ (kept = false → gap ≤ e)) ∧
      ((∃ s : Assignment V, s.InDomain p.vartype p.labels.keys ∧ p.check s = .ok true) →
        ∀ s : Assignment V, s.InDomain p.vartype p.labels.keys →
          (m.IsGround s ↔ p.check s = .ok true)) := by
  have hw := hp.wellFormed
  obtain ⟨hgap, htables⟩ := exists_penalty_of_stitch h
  obtain ⟨m₀, f, hm₀, hadds, hf⟩ := hw.stitch_eq hgap htables
  obtain rfl : m₀.toVartype p.vartype = m := Except.ok.inj (hm₀.symm.trans h)
  have hlabels : m₀.labels = p.labels.keys :=
    hadds.labels_eq.trans (Model.labels_blank _ p.labels.nodup)
  have hlabels' := (hadds.wellFormed.labels_toVartype p.vartype).trans hlabels
  have henergy : ∀ s : Assignment V, s.InDomain p.vartype p.labels.keys →
      (m₀.toVartype p.vartype).energy s = .ok (f (bitValues (s.bit p.vartype))) := by
    intro s hs
    rw [hadds.wellFormed.energy_toVartype p.vartype (hlabels ▸ hs),
      hadds.vartype_eq.trans (Model.vartype_blank _ _)]
    simp only [value_binary]
    rw [hadds.evaluate_eq, Model.evaluate_blank, zero_add]
    rfl
  have hcost : ∀ b : V → Bool, (p.keptBy b = true → f (bitValues b) = 0) ∧
      (p.keptBy b = false → gap ≤ f (bitValues b)) := by
    intro b
    rw [keptBy, List.all_eq_true, List.all_eq_false]
    simpa only [Bool.not_eq_true] using hf b
  refine ⟨Model.vartype_toVartype _ _, hlabels', fun s hs => ?_, ?_⟩
  · exact ⟨_, _, hw.check_eq hs, henergy s hs, hcost _⟩
  · rintro ⟨s₀, hs₀, hkept₀⟩ s hs
    rw [hw.check_eq hs₀, Except.ok.injEq] at hkept₀
    rw [Model.isGround_iff (f := fun s => f (bitValues (s.bit p.vartype)))
      (by simpa only [Model.vartype_toVartype, hlabels'] using henergy)
      (by simpa only [Model.vartype_toVartype, hlabels'] using hs), hw.check_eq hs,
      Except.ok.injEq, Model.vartype_toVartype, hlabels']
    constructor
    · -- more than the energy of the known solution is too much for a ground state
      intro hleast
      by_contra hkept
      have hle : f (bitValues (s.bit p.vartype)) ≤ 0 :=
        (hleast s₀ hs₀).trans_eq ((hcost _).1 hkept₀)
      exact absurd (hgap.trans_le ((hcost _).2 (Bool.not_eq_true _ ▸ hkept))) hle.not_gt
    · intro hkept s' _
      rw [(hcost _).1 hkept]
      exact hf.nonneg hgap _

theorem stitch_gate_and_difference :
    let gate : Constraint Nat :=
      { label := none, vartype := .spin, scope := [0, 1, 2]
        configurations := [[-1, -1, -1], [-1, 1, -1], [1, -1, -1], [1, 1, 1]]
        distinct := by decide, length_eq := by decide, inDomain := by decide }
    let differ : Constraint Nat :=
      { label := none, vartype := .spin, scope := [2, 3], configurations := [[-1, 1], [1, -1]]
        distinct := by decide, length_eq := by decide, inDomain := by decide }
    ∃ p p' : ConstraintProblem Nat,
      ((ConstraintProblem.empty .spin).addVariable 3).addConstraint gate = .ok p' ∧
      p'.addConstraint differ = .ok p ∧ p.Built ∧
      ∃ m : Model Nat ℝ, p.stitch 2 = .ok m ∧ m.vartype = .spin ∧ m.labels = [3, 0, 1, 2] ∧
        ∀ s : Assignment Nat, s.InDomain .spin [3, 0, 1, 2] →
          (∃ kept e, p.check s = .ok kept ∧ m.energy s = .ok e ∧
            (kept = true → e = 0) ∧ (kept = false → 2 ≤ e)) ∧
          (m.IsGround s ↔ p.check s = .ok true) := by
  intro gate differ
  let p' : ConstraintProblem Nat :=
    ⟨.spin, OrderedSet.addAll (OrderedSet.add ∅ 3) [0, 1, 2], [gate]⟩
  let p : ConstraintProblem Nat := ⟨.spin, OrderedSet.addAll p'.labels [2, 3], [gate, differ]⟩
  have hp' : ((ConstraintProblem.empty .spin).addVariable 3).addConstraint gate = .ok p' := rfl
  have hp : p'.addConstraint differ = .ok p := rfl
  have hbuilt : p.Built := .addConstraint (.addConstraint (.addVariable 3 (.empty .spin)) hp') hp
  have hgate : ∃ table, gate.penalty (2 : ℝ) = .ok table := by
    have hmatch : Gadget.match? gate.feasible = some ⟨.and, 0, 1, 2, 0⟩ := by decide
    refine ⟨fun k => ((Gadget.penalty ⟨.and, 0, 1, 2, 0⟩ k : Int) : ℝ) * 2, ?_⟩
    have harity : gate.arity = maxPenaltyArity := rfl
    rw [Constraint.penalty, if_neg (by decide), if_neg (by decide), if_neg (by decide),
      if_pos harity, hmatch]
  have hdiffer : ∃ table, differ.penalty (2 : ℝ) = .ok table := by
    refine ⟨fun k => if differ.feasible k then 0 else 2, ?_⟩
    rw [Constraint.penalty, if_neg (by decide), if_neg (by decide), if_neg (by decide),
      if_neg (by decide)]
  obtain ⟨m, f, hm, -, -⟩ := hbuilt.wellFormed.stitch_eq (two_pos : (0 : ℝ) < 2)
    (by simpa [p] using ⟨hgate, hdiffer⟩)
  have hsolution : ∃ s : Assignment Nat,
      s.InDomain .spin [3, 0, 1, 2] ∧ p.check s = .ok true := by
    refine ⟨fun v => some (if v = 3 then -1 else 1), fun v _ => ⟨v ≠ 3, ?_⟩, rfl⟩
    by_cases hv : v = 3 <;> simp [hv, Vartype.value]
  obtain ⟨hvartype, hlabels, henergies, hground⟩ := stitch_exact hbuilt hm
  exact ⟨p, p', hp', hp, hbuilt, _, hm, hvartype, hlabels, fun s hs =>
    ⟨henergies s hs, hground hsolution s hs⟩⟩

end ConstraintProblem

end BinaryQuadratic

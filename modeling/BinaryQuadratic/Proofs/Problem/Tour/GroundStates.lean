import BinaryQuadratic.Proofs.Problem.Tour.Length

/-! Under the default penalty the ground states of the tour model are the shortest tours. -/

namespace BinaryQuadratic.Tour

open Coefficient

section Validation

variable {α : Type} [Coefficient α]

theorem rowFault?_eq_none_iff {n i : Nat} {row : List α} :
    rowFault? n i row = none ↔ row.length = n ∧ ∀ x ∈ row, isFinite x = true := by
  rw [rowFault?]
  split
  · next h => simp [h]
  · next h => simp [not_not.1 h]

theorem validate_eq_ok_iff {d : Distances α} : validate d = .ok () ↔
    d ≠ [] ∧ (∀ row ∈ d, row.length = d.length) ∧ ∀ row ∈ d, ∀ x ∈ row, isFinite x = true := by
  have hrows : (d.zipIdx.findSome? fun p => rowFault? d.length p.2 p.1) = none ↔
      ∀ row ∈ d, row.length = d.length ∧ ∀ x ∈ row, isFinite x = true := by
    simp only [List.findSome?_eq_none_iff, rowFault?_eq_none_iff]
    constructor
    · intro h row hrow
      obtain ⟨i, hi, rfl⟩ := List.mem_iff_getElem.1 hrow
      exact h (d[i], i) (List.mem_zipIdx_iff_getElem?.2 (List.getElem?_eq_getElem hi))
    · exact fun h p hp => h p.1 (List.fst_mem_of_mem_zipIdx hp)
  rw [validate, ← forall₂_and, ← hrows]
  split
  · next hempty => simp [List.isEmpty_iff.1 hempty]
  next hempty =>
  have hne : d ≠ [] := fun h => hempty (List.isEmpty_iff.2 h)
  split
  · next fault h =>
    have hfault : (d.zipIdx.findSome? fun p => rowFault? d.length p.2 p.1) = some fault := h
    simp [hfault]
  · next h =>
    have hnone : (d.zipIdx.findSome? fun p => rowFault? d.length p.2 p.1) = none := h
    exact iff_of_true rfl ⟨hne, hnone⟩

variable {d : Distances α} (p : Option α)

theorem model_of_fault {fault : DistanceFault} (h : validate d = .error fault) :
    model d p = .error (.distances fault) := by
  rw [model, h]
  rfl

theorem model_of_valid (h : validate d = .ok ()) :
    model d p = (penalty d p).map (weightedModel d) := by
  rw [model, h]
  cases penalty d p <;> rfl

end Validation

variable {α : Type} [Exact α] {d : Distances α}

def IsShortest (d : Distances α) (t : List Nat) : Prop :=
  t.Perm (List.range d.length) ∧ ∃ x, tourDistance? d t = some x ∧
    ∀ t' : List Nat, t'.Perm (List.range d.length) → ∃ x', tourDistance? d t' = some x' ∧ x ≤ x'

theorem model_eq_of_valid {p : Option α} (hd : validate d = .ok ()) (hp : ∀ q, p = some q → 0 < q) :
    model d p = .ok (weightedModel d (p.getD (defaultPenalty d))) := by
  rw [model_of_valid p hd]
  cases p with
  | none => rfl
  | some q =>
    have hq : isFinite q = true ∧ 0 < q := ⟨rfl, hp q rfl⟩
    rw [penalty, if_pos hq]
    rfl

section Square

variable (hd : ∀ row ∈ d, row.length = d.length)

include hd

theorem isShortest_iff {t : List Nat} : IsShortest d t ↔ t.Perm (List.range d.length) ∧
    ∀ t' : List Nat, t'.Perm (List.range d.length) → tourLength d t ≤ tourLength d t' := by
  refine and_congr_right fun ht => ?_
  constructor
  · rintro ⟨x, hx, hall⟩ t' ht'
    obtain ⟨x', hx', hle⟩ := hall t' ht'
    obtain rfl := Option.some.inj ((tourDistance?_eq hd ht).symm.trans hx)
    obtain rfl := Option.some.inj ((tourDistance?_eq hd ht').symm.trans hx')
    exact hle
  · intro hall
    exact ⟨_, tourDistance?_eq hd ht, fun t' ht' => ⟨_, tourDistance?_eq hd ht', hall t' ht'⟩⟩

theorem exists_isShortest : ∃ t, IsShortest d t := by
  have hne : (List.range d.length).permutations.toFinset.Nonempty :=
    ⟨List.range d.length, by simp⟩
  obtain ⟨t, ht, hleast⟩ := Finset.exists_min_image _ (tourLength d) hne
  simp only [List.mem_toFinset, List.mem_permutations] at ht hleast
  exact ⟨t, (isShortest_iff hd).2 ⟨ht, hleast⟩⟩

theorem model_eq (hne : d ≠ []) : model d none = .ok (weightedModel d (defaultPenalty d)) :=
  model_eq_of_valid (validate_eq_ok_iff.2 ⟨hne, hd, fun _ _ _ _ => rfl⟩) nofun

theorem vartype_weightedModel (p : α) : (weightedModel d p).vartype = .binary :=
  (adds_weightedModel hd p).vartype_eq.trans (Model.vartype_blank _ _)

theorem labels_weightedModel (p : α) : (weightedModel d p).labels = cells d.length :=
  (adds_weightedModel hd p).labels_eq.trans (Model.labels_blank _ (nodup_cells _))

theorem energy_weightedModel (p : α) {s : Assignment Cell}
    (hs : s.InDomain .binary (cells d.length)) : (weightedModel d p).energy s =
      .ok (travelled d (s.bit .binary) + p * (excess (s.bit .binary) d.length : Int)) := by
  have hs' : s.InDomain (weightedModel d p).vartype (weightedModel d p).labels := by
    rwa [vartype_weightedModel hd, labels_weightedModel hd]
  rw [(adds_weightedModel hd p).wellFormed.energy_eq hs', vartype_weightedModel hd]
  simp only [value_binary]
  exact congrArg Except.ok (evaluate_weightedModel hd p (s.bit .binary))

end Square

section Costs

variable {b : Cell → Bool} {t : List Nat}

def cost (d : Distances α) (b : Cell → Bool) : α :=
  travelled d b + defaultPenalty d * (excess b d.length : Int)

theorem cost_add_loop (h : Encodes b d.length t) : cost d b + loop d = tourLength d t := by
  rw [cost, h.excess_eq, Int.cast_zero, mul_zero, add_zero, travelled_add_loop h]

variable (hnonneg : ∀ row ∈ d, ∀ x ∈ row, 0 ≤ x)

include hnonneg

theorem tourLength_lt_cost (h : ¬ ∃ t, Encodes b d.length t) (t : List Nat) :
    tourLength d t < cost d b := by
  have hexcess : (2 : α) ≤ (excess b d.length : Int) := by exact_mod_cast two_le_excess h
  calc tourLength d t < 2 * defaultPenalty d := tourLength_lt d t
    _ = defaultPenalty d * 2 := mul_comm _ _
    _ ≤ defaultPenalty d * (excess b d.length : Int) :=
        mul_le_mul_of_nonneg_left hexcess (defaultPenalty_pos d).le
    _ ≤ cost d b := le_add_of_nonneg_left (travelled_nonneg hnonneg b)

theorem least_cost_iff : (∀ s : Assignment Cell, s.InDomain .binary (cells d.length) →
      cost d b ≤ cost d (s.bit .binary)) ↔
    ∃ t, Encodes b d.length t ∧
      ∀ t' : List Nat, t'.Perm (List.range d.length) → tourLength d t ≤ tourLength d t' := by
  have hloop := loop_nonneg hnonneg
  constructor
  · intro hleast
    have htours : ∀ t' : List Nat, t'.Perm (List.range d.length) →
        cost d b + loop d ≤ tourLength d t' := by
      intro t' ht'
      rw [← cost_add_loop (encodes_assignmentOf ht')]
      exact add_le_add_left (hleast _ (inDomain_assignmentOf t' _)) _
    -- what is no tour costs more than the tour in the order of the cities
    have htour : ∃ t, Encodes b d.length t := by
      by_contra hnone
      have hlt := tourLength_lt_cost hnonneg hnone (List.range d.length)
      have hle := htours _ (List.Perm.refl _)
      linarith
    obtain ⟨t, ht⟩ := htour
    exact ⟨t, ht, fun t' ht' => cost_add_loop ht ▸ htours t' ht'⟩
  · rintro ⟨t, ht, hshortest⟩ s hs
    have hcost := cost_add_loop ht
    by_cases htour : ∃ t', Encodes (s.bit .binary) d.length t'
    · obtain ⟨t', ht'⟩ := htour
      have hle := hshortest t' ht'.perm
      rw [← hcost, ← cost_add_loop ht'] at hle
      exact le_of_add_le_add_right hle
    · have hlt := tourLength_lt_cost hnonneg htour t
      linarith

end Costs

/-- The ground states are read as the shortest tours. With two cities or more their energy is the
length of such a tour. -/
theorem model_ground_states (hne : d ≠ []) (hd : ∀ row ∈ d, row.length = d.length)
    (hnonneg : ∀ row ∈ d, ∀ x ∈ row, 0 ≤ x) :
    ∃ m, model d none = .ok m ∧ m.vartype = .binary ∧ m.labels = cells d.length ∧
      (∃ s : Assignment Cell, s.InDomain .binary (cells d.length) ∧ m.IsGround s) ∧
      (∀ s : Assignment Cell, s.InDomain .binary (cells d.length) →
        (m.IsGround s ↔ ∃ t, decode? s d.length = some t ∧ IsShortest d t)) ∧
      (2 ≤ d.length → ∀ (s : Assignment Cell) (t : List Nat),
        s.InDomain .binary (cells d.length) → m.IsGround s → IsShortest d t →
        ∃ x, m.energy s = .ok x ∧ tourDistance? d t = some x) := by
  set m := weightedModel d (defaultPenalty d) with hm
  have hvartype : m.vartype = .binary := vartype_weightedModel hd _
  have hlabels : m.labels = cells d.length := labels_weightedModel hd _
  have henergy : ∀ s : Assignment Cell, s.InDomain .binary (cells d.length) →
      m.energy s = .ok (cost d (s.bit .binary)) := fun s hs => energy_weightedModel hd _ hs
  have hground : ∀ s : Assignment Cell, s.InDomain .binary (cells d.length) →
      (m.IsGround s ↔ ∃ t, decode? s d.length = some t ∧ IsShortest d t) := by
    intro s hs
    rw [Model.isGround_iff (f := fun s => cost d (s.bit .binary))
      (by rwa [hvartype, hlabels]) (by rwa [hvartype, hlabels]), hvartype, hlabels,
      least_cost_iff hnonneg]
    refine exists_congr fun t => ?_
    rw [decode?_eq_some_iff hs, isShortest_iff hd]
    exact and_congr_right fun h => (and_iff_right h.perm).symm
  refine ⟨m, model_eq hd hne, hvartype, hlabels, ?_, hground, ?_⟩
  · obtain ⟨t, ht⟩ := exists_isShortest hd
    have hs := inDomain_assignmentOf t (cells d.length)
    refine ⟨assignmentOf t, hs, (hground _ hs).2 ⟨t, ?_, ht⟩⟩
    exact (decode?_eq_some_iff hs).2 (encodes_assignmentOf ht.1)
  · -- the tour that the state is read as need not be `t`, but is as short
    intro htwo s t hs hs' ht
    obtain ⟨t', hdecode, ht'⟩ := (hground s hs).1 hs'
    have hcost := cost_add_loop ((decode?_eq_some_iff hs).1 hdecode)
    rw [isShortest_iff hd] at ht ht'
    rw [loop, if_neg (by omega), add_zero] at hcost
    refine ⟨_, henergy s hs, ?_⟩
    rw [tourDistance?_eq hd ht.1, hcost, le_antisymm (ht.2 t' ht'.1) (ht'.2 t ht.1)]

theorem model_three_cities :
    let d : Distances ℝ := [[0, 2, 9], [1, 0, 6], [15, 7, 0]]
    d ≠ [] ∧ (∀ row ∈ d, row.length = d.length) ∧ (∀ row ∈ d, ∀ x ∈ row, 0 ≤ x) ∧
      2 ≤ d.length ∧
      ∃ m, model d none = .ok m ∧ m.vartype = .binary ∧ m.labels = cells 3 ∧
        (∃ s : Assignment Cell, s.InDomain .binary (cells 3) ∧ m.IsGround s) ∧
        (∀ s : Assignment Cell, s.InDomain .binary (cells 3) →
          (m.IsGround s ↔ ∃ t, decode? s 3 = some t ∧ IsShortest d t)) ∧
        ∀ (s : Assignment Cell) (t : List Nat), s.InDomain .binary (cells 3) → m.IsGround s →
          IsShortest d t → ∃ x, m.energy s = .ok x ∧ tourDistance? d t = some x := by
  intro d
  have hne : d ≠ [] := List.cons_ne_nil _ _
  have hd : ∀ row ∈ d, row.length = d.length := by simp [d]
  have hnonneg : ∀ row ∈ d, ∀ x ∈ row, 0 ≤ x := by norm_num [d]
  have htwo : 2 ≤ d.length := by simp [d]
  obtain ⟨m, hm, hvartype, hlabels, hexists, hground, henergy⟩ :=
    model_ground_states hne hd hnonneg
  exact ⟨hne, hd, hnonneg, htwo, m, hm, hvartype, hlabels, hexists, hground, henergy htwo⟩

end BinaryQuadratic.Tour

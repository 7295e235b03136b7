import BinaryQuadratic.Proofs.Problem.Tour.GroundStates

/-! The energy of every assignment to the tour model, tour or not: the distances that its ones pay
for, and the penalty times the squares by which cities and slots miss being used once. Distances may
be negative here. Nothing but the data that are refused keeps a model from being made, since no cell
is ever coupled with itself. -/

namespace BinaryQuadratic

open Finset Coefficient

theorem foldlM_eq_ok {β M ε : Type} {f : M → β → Except ε M} {g : M → β → M} {l : List β}
    (h : ∀ b ∈ l, ∀ m, f m b = .ok (g m b)) (m : M) : l.foldlM f m = .ok (l.foldl g m) := by
  induction l generalizing m with
  | nil => rfl
  | cons b l ih =>
    rw [List.foldlM_cons, h b List.mem_cons_self]
    exact ih (fun b hb => h b (List.mem_cons_of_mem _ hb)) _

namespace Model

variable {V α : Type} [DecidableEq V] [Coefficient α]

theorem addInteractions_eq_coupleAll (m : Model V α) {terms : List (V × V × α)}
    (h : ∀ e ∈ terms, e.1 ≠ e.2.1) : m.addInteractions terms = (m.coupleAll terms, none) := by
  induction terms generalizing m with
  | nil => rfl
  | cons e terms ih =>
    rw [addInteractions, addInteraction, if_neg (h e List.mem_cons_self)]
    exact ih _ fun e he => h e (List.mem_cons_of_mem _ he)

/-- Like `addSquare`, with the check that each interaction is between two variables. -/
def checkedSquare (p : α) : List V → Model V α → Except (ModelError V) (Model V α)
  | [], m => .ok m
  | v :: rest, m =>
    match (m.addVariable v (-p)).addInteractions (rest.map fun w => (v, w, ofNat 2 * p)) with
    | (m, none) => checkedSquare p rest m
    | (_, some e) => .error e

theorem checkedSquare_eq (p : α) {vs : List V} (h : vs.Nodup) (m : Model V α) :
    checkedSquare p vs m = .ok (addSquare p vs m) := by
  induction vs generalizing m with
  | nil => rfl
  | cons v rest ih =>
    obtain ⟨hnew, hrest⟩ := List.nodup_cons.1 h
    have hne : ∀ e ∈ rest.map fun w => (v, w, ofNat 2 * p), e.1 ≠ e.2.1 := by
      intro e he
      obtain ⟨w, hw, rfl⟩ := List.mem_map.1 he
      show v ≠ w
      rintro rfl
      exact hnew hw
    rw [checkedSquare, addInteractions_eq_coupleAll _ hne]
    exact ih hrest _

end Model

namespace Tour

section Errors

variable {α : Type} [Coefficient α]

def checkedModel (d : Distances α) (p : α) : Except (ModelError Cell) (Model Cell α) :=
  let m := (Model.empty .binary).addVariables ((cells d.length).map fun c => (c, 0))
  match m.addInteractions (distanceTerms d) with
  | (m, none) =>
    (groups d.length).foldlM (fun m vs => (m.checkedSquare p vs).map (·.addOffset p)) m
  | (_, some e) => .error e

theorem checkedModel_eq {d : Distances α} (hd : ∀ row ∈ d, row.length = d.length) (p : α) :
    checkedModel d p = .ok (weightedModel d p) := by
  rw [checkedModel, Model.addInteractions_eq_coupleAll _ fun e he => (mem_distanceTerms hd he).2.2]
  refine foldlM_eq_ok (fun vs hvs m => ?_) _
  rw [Model.checkedSquare_eq p (mem_groups hvs).1]
  rfl

theorem model_eq_error_iff {d : Distances α} {p : Option α} {e : InvalidInput Cell α} :
    model d p = .error e ↔ (∃ f, validate d = .error f ∧ e = .distances f) ∨
      validate d = .ok () ∧ ∃ q, p = some q ∧ ¬(isFinite q = true ∧ 0 < q) ∧ e = .penalty q := by
  cases hd : validate d with
  | error f => simp [model_of_fault p hd, @eq_comm _ e]
  | ok =>
    rw [model_of_valid p hd]
    cases p with
    | none => simp [penalty, Except.map]
    | some q =>
      by_cases hq : isFinite q = true ∧ 0 < q
      · simp [penalty, Except.map, hq]
      · simpa [penalty, Except.map, hq, @eq_comm _ e] using fun _ => not_and.1 hq

theorem checkedModel_of_model {d : Distances α} {p : Option α} {m : Model Cell α}
    (h : model d p = .ok m) : ∃ q, penalty d p = .ok q ∧ checkedModel d q = .ok m := by
  cases hd : validate d with
  | error f =>
    rw [model_of_fault p hd] at h
    cases h
  | ok =>
    rw [model_of_valid p hd] at h
    cases hq : penalty d p with
    | error e =>
      rw [hq] at h
      cases h
    | ok q =>
      rw [hq] at h
      obtain rfl := Except.ok.inj h
      exact ⟨q, rfl, checkedModel_eq (validate_eq_ok_iff.1 hd).2.1 q⟩

end Errors

section Energies

variable {α : Type} [Exact α] {d : Distances α}

def citySquares (x : Cell → α) (n : Nat) : α :=
  ∑ city ∈ range n, (∑ slot ∈ range n, x ⟨city, slot⟩ - 1) ^ 2

def slotSquares (x : Cell → α) (n : Nat) : α :=
  ∑ slot ∈ range n, (∑ city ∈ range n, x ⟨city, slot⟩ - 1) ^ 2

theorem cast_excess (b : Cell → Bool) (n : Nat) : ((excess b n : Int) : α) =
    citySquares (bitValues b) n + slotSquares (bitValues b) n := by
  have hsum : ∀ c : Nat → Cell, ((((List.range n).filter fun k => b (c k)).length : Nat) : α) =
      ∑ k ∈ range n, bitValues b (c k) := by
    intro c
    rw [← sum_bitValues_range, List.map_map]
    rfl
  rw [excess, citySquares, slotSquares, ← Finset.sum_add_distrib]
  push_cast
  simp only [rowCount, columnCount, hsum]

/-- What the model of a tour is, whatever the signs of the distances. -/
structure Decomposes (d : Distances α) (p : α) (m : Model Cell α) : Prop where
  vartype_eq : m.vartype = .binary
  numVariables_eq : m.numVariables = d.length * d.length
  mem_labels : ∀ c, c ∈ m.labels ↔ c.city < d.length ∧ c.slot < d.length
  energy_eq : ∀ s : Assignment Cell, s.InDomain .binary m.labels →
    let x : Cell → α := bitValues (s.bit .binary)
    m.energy s = .ok
      ((∑ i ∈ range d.length, ∑ k ∈ range d.length, if i = k then 0 else
          ∑ slot ∈ range d.length,
            distance d i k * x ⟨i, slot⟩ * x ⟨k, (slot + 1) % d.length⟩) +
        (p * citySquares x d.length + p * slotSquares x d.length))
  two_mul_le : ∀ s : Assignment Cell, s.InDomain .binary m.labels → decode? s d.length = none →
    let x : Cell → α := bitValues (s.bit .binary)
    2 * p ≤ p * citySquares x d.length + p * slotSquares x d.length

end Energies

theorem length_cells (n : Nat) : (cells n).length = n * n := by
  simp [cells]

/-- Refused data are the only errors, since no interaction is refused on the way. All other data give
a model over the cells, whose energy is the sum of the distances and of the penalties, on every
assignment. -/
theorem model_decomposes :
    (∀ {β : Type} [Coefficient β] (d : Distances β) (p : Option β),
      (∀ e, model d p = .error e ↔ (∃ f, validate d = .error f ∧ e = .distances f) ∨
        validate d = .ok () ∧ ∃ q, p = some q ∧ ¬(isFinite q = true ∧ 0 < q) ∧ e = .penalty q) ∧
      ∀ m, model d p = .ok m → ∃ q, penalty d p = .ok q ∧ checkedModel d q = .ok m) ∧
    ∀ {α : Type} [Exact α] (d : Distances α) (p : Option α), validate d = .ok () →
      (∀ q, p = some q → isFinite q = true ∧ 0 < q) →
      ∃ m, model d p = .ok m ∧ Decomposes d (p.getD (defaultPenalty d)) m := by
  refine ⟨fun d p => ⟨fun e => model_eq_error_iff, fun m => checkedModel_of_model⟩,
    @fun α _ d p hvalid hp => ?_⟩
  obtain ⟨-, hd, -⟩ := validate_eq_ok_iff.1 hvalid
  set P := p.getD (defaultPenalty d) with hP
  have hpos : 0 < P := by
    cases p with
    | none => exact defaultPenalty_pos d
    | some q => exact (hp q rfl).2
  have hlabels : (weightedModel d P).labels = cells d.length := labels_weightedModel hd P
  refine ⟨weightedModel d P, model_eq_of_valid hvalid fun q hq => (hp q hq).2,
    { vartype_eq := vartype_weightedModel hd P
      numVariables_eq := ?_
      mem_labels := fun c => by rw [hlabels, mem_cells]
      energy_eq := fun s hs => ?_
      two_mul_le := fun s hs hnone => ?_ }⟩
  · rw [← Model.length_labels, hlabels, length_cells]
  · rw [energy_weightedModel hd P (hlabels ▸ hs), cast_excess, mul_add]
    rfl
  · have htour : ¬∃ t, Encodes (s.bit .binary) d.length t := by
      rintro ⟨t, ht⟩
      cases hnone.symm.trans ((decode?_eq_some_iff (hlabels ▸ hs)).2 ht)
    have hexcess : (2 : α) ≤ (excess (s.bit .binary) d.length : Int) := by
      exact_mod_cast two_le_excess htour
    intro x
    rw [← mul_add, ← cast_excess, mul_comm]
    exact mul_le_mul_of_nonneg_left hexcess hpos.le

theorem model_signed_three_cities :
    let d : Distances ℝ := [[5, -2, 9], [1, 0, -6], [15, 7, -1]]
    validate d = .ok () ∧ (∀ q, some (1 / 3 : ℝ) = some q → isFinite q = true ∧ 0 < q) ∧
      ∃ m, model d (some (1 / 3)) = .ok m ∧ Decomposes d (1 / 3) m := by
  intro d
  have hvalid : validate d = .ok () := validate_eq_ok_iff.2 (by simp [d])
  have hp : ∀ q, some (1 / 3 : ℝ) = some q → isFinite q = true ∧ 0 < q := by
    rintro q ⟨⟩
    exact ⟨rfl, by norm_num⟩
  exact ⟨hvalid, hp, model_decomposes.2 d (some (1 / 3)) hvalid hp⟩

section Lengths

variable {α : Type} [Exact α] {d : Distances α} {p : Option α} {s : Assignment Cell} {t : List Nat}

theorem Encodes.energy_weightedModel (h : Encodes (s.bit .binary) d.length t)
    (hd : ∀ row ∈ d, row.length = d.length) (p : α) (hs : s.InDomain .binary (cells d.length)) :
    (weightedModel d p).energy s = .ok (tourLength d t - loop d) := by
  rw [Tour.energy_weightedModel hd p hs, h.excess_eq, Int.cast_zero, mul_zero, add_zero,
    ← travelled_add_loop h, add_sub_cancel_right]

theorem loop_eq_zero_iff : loop d = 0 ↔ d.length ≠ 1 ∨ distance d 0 0 = 0 := by
  rw [loop, ite_eq_right_iff, imp_iff_not_or]

/-- The energy of a tour is its length up to the step of a single city to itself, which the length
counts and the model leaves out. -/
theorem energy_of_decoded_tour (hvalid : validate d = .ok ())
    (hp : ∀ q, p = some q → isFinite q = true ∧ 0 < q) :
    ∃ m, model d p = .ok m ∧ ∀ (s : Assignment Cell) (t : List Nat),
      s.InDomain .binary (cells d.length) → decode? s d.length = some t →
        ∃ e x, m.energy s = .ok e ∧ tourDistance? d t = some x ∧ e = x - loop d ∧
          (e = x ↔ d.length ≠ 1 ∨ distance d 0 0 = 0) := by
  obtain ⟨-, hd, -⟩ := validate_eq_ok_iff.1 hvalid
  refine ⟨_, model_eq_of_valid hvalid fun q hq => (hp q hq).2, fun s t hs ht => ?_⟩
  have htour := (decode?_eq_some_iff hs).1 ht
  refine ⟨_, _, htour.energy_weightedModel hd _ hs, tourDistance?_eq hd htour.perm, rfl, ?_⟩
  rw [sub_eq_self, loop_eq_zero_iff]

theorem energy_of_decoded_tour_three_cities :
    let d : Distances ℝ := [[5, -2, 9], [1, 0, -6], [15, 7, -1]]
    validate d = .ok () ∧ (assignmentOf [2, 0, 1]).InDomain .binary (cells 3) ∧
      decode? (assignmentOf [2, 0, 1]) 3 = some [2, 0, 1] ∧
      ∃ m, model d none = .ok m ∧ m.energy (assignmentOf [2, 0, 1]) = .ok 7 ∧
        tourDistance? d [2, 0, 1] = some 7 := by
  intro d
  have hvalid : validate d = .ok () := validate_eq_ok_iff.2 (by simp [d])
  have hs := inDomain_assignmentOf [2, 0, 1] (cells 3)
  have hdecode : decode? (assignmentOf [2, 0, 1]) 3 = some [2, 0, 1] :=
    (decode?_eq_some_iff hs).2 (encodes_assignmentOf (by decide))
  have hlength : tourDistance? d [2, 0, 1] = some 7 := by
    have hlegs : tourDistance? d [2, 0, 1] = some (sum [15, -2, -6]) := rfl
    rw [hlegs, sum_eq]
    norm_num
  obtain ⟨m, hm, henergy⟩ := energy_of_decoded_tour (p := none) hvalid (by simp)
  obtain ⟨e, x, he, hx, -, heq⟩ := henergy _ _ hs hdecode
  obtain rfl := Option.some.inj (hlength.symm.trans hx)
  obtain rfl := heq.2 (.inl (by simp [d]))
  exact ⟨hvalid, hs, hdecode, m, hm, he, hlength⟩

/-- The tour of one city at distance five from itself has energy zero. -/
theorem energy_ne_length_single_city :
    let d : Distances ℝ := [[5]]
    validate d = .ok () ∧ (assignmentOf [0]).InDomain .binary (cells 1) ∧
      decode? (assignmentOf [0]) 1 = some [0] ∧
      ∃ m, model d none = .ok m ∧ m.energy (assignmentOf [0]) = .ok 0 ∧
        tourDistance? d [0] = some 5 ∧ (0 : ℝ) ≠ 5 := by
  intro d
  have hvalid : validate d = .ok () := validate_eq_ok_iff.2 (by simp [d])
  obtain ⟨-, hd, -⟩ := validate_eq_ok_iff.1 hvalid
  have hs := inDomain_assignmentOf [0] (cells 1)
  have htour : Encodes ((assignmentOf [0]).bit .binary) 1 [0] := encodes_assignmentOf (by decide)
  have henergy := htour.energy_weightedModel (d := d) hd (defaultPenalty d) hs
  have hlength : tourDistance? d [0] = some 5 := by
    have hlegs : tourDistance? d [0] = some (sum [5]) := rfl
    rw [hlegs, sum_eq]
    norm_num
  have hloop : loop d = 5 := by simp [loop, distance, distance?, d]
  rw [Option.some.inj ((tourDistance?_eq hd htour.perm).symm.trans hlength), hloop,
    sub_self] at henergy
  exact ⟨hvalid, hs, (decode?_eq_some_iff hs).2 htour, _, model_eq_of_valid hvalid (by simp), henergy,
    hlength, by norm_num⟩

end Lengths

end Tour

end BinaryQuadratic

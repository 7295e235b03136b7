import BinaryQuadratic.Proofs.Problem.Tour.Decoding

/-! The energy of the tour model is the distance between the cities of consecutive slots, and a
penalty for each city and each slot that is not used once. -/

namespace BinaryQuadratic

open Finset Coefficient

section OneHot

variable {V α : Type} [Exact α]

def squareTerms (p : α) : List V → (V → α) → α
  | [], _ => 0
  | v :: rest, x =>
    -p * x v + (rest.map fun w => ofNat 2 * p * x v * x w).sum + squareTerms p rest x

theorem squareTerms_eq (p : α) {x : V → α} (hx : ∀ v, x v * x v = x v) (vs : List V) :
    squareTerms p vs x + p = p * ((vs.map x).sum - 1) ^ 2 := by
  have key : squareTerms p vs x = p * ((vs.map x).sum ^ 2 - 2 * (vs.map x).sum) := by
    induction vs with
    | nil => simp [squareTerms]
    | cons v rest ih =>
      have hpull : (rest.map fun w => ofNat 2 * p * x v * x w).sum =
          2 * p * x v * (rest.map x).sum := by
        rw [← List.sum_map_mul_left, show (ofNat 2 : α) = 2 from Nat.cast_ofNat]
      rw [squareTerms, hpull, ih, List.map_cons, List.sum_cons]
      -- the only square that is not a product of two variables is that of `v`
      linear_combination (-p) * hx v
  rw [key]
  ring

namespace Model

variable [DecidableEq V] {m : Model V α}

theorem adds_coupleAll (h : m.WellFormed) {terms : List (V × V × α)}
    (hterms : ∀ e ∈ terms, e.1 ∈ m.labels ∧ e.2.1 ∈ m.labels ∧ e.1 ≠ e.2.1) :
    m.Adds (m.coupleAll terms) fun x => (terms.map fun e => e.2.2 * x e.1 * x e.2.1).sum := by
  refine .foldl h fun e he m' hm' hlabels => ?_
  obtain ⟨hu, hv, huv⟩ := hterms e he
  exact hm'.adds_couple (hlabels ▸ hu) (hlabels ▸ hv) huv e.2.2

theorem adds_addSquare (p : α) {vs : List V} (h : m.WellFormed) (hnodup : vs.Nodup)
    (hvs : ∀ v ∈ vs, v ∈ m.labels) : m.Adds (addSquare p vs m) (squareTerms p vs) := by
  induction vs generalizing m with
  | nil => exact .refl h
  | cons v rest ih =>
    obtain ⟨hnew, hnodup⟩ := List.nodup_cons.1 hnodup
    have hlinear := h.adds_addVariable (hvs v List.mem_cons_self) (-p)
    have hterms : ∀ e ∈ rest.map fun w => (v, w, ofNat 2 * p),
        e.1 ∈ (m.addVariable v (-p)).labels ∧ e.2.1 ∈ (m.addVariable v (-p)).labels ∧
          e.1 ≠ e.2.1 := by
      intro e he
      obtain ⟨w, hw, rfl⟩ := List.mem_map.1 he
      rw [hlinear.labels_eq]
      refine ⟨hvs v List.mem_cons_self, hvs w (List.mem_cons_of_mem _ hw), ?_⟩
      show v ≠ w
      rintro rfl
      exact hnew hw
    have hcouple := adds_coupleAll hlinear.wellFormed hterms
    have hfirst := hlinear.trans hcouple
    have hrest := ih hfirst.wellFormed hnodup fun w hw => by
      rw [hfirst.labels_eq]
      exact hvs w (List.mem_cons_of_mem _ hw)
    have hall := hfirst.trans hrest
    simp only [List.map_map, Function.comp_def] at hall
    exact hall

theorem adds_addOneHot (p : α) {vs : List V} (h : m.WellFormed) (hnodup : vs.Nodup)
    (hvs : ∀ v ∈ vs, v ∈ m.labels) :
    m.Adds (m.addOneHot vs p) fun x => squareTerms p vs x + p :=
  have hsquare := adds_addSquare p h hnodup hvs
  hsquare.trans (hsquare.wellFormed.adds_addOffset p)

end Model

end OneHot

section Sums

variable {α : Type} [Exact α]

theorem sum_flatMap {β γ : Type} (l : List β) (f : β → List γ) (g : γ → α) :
    ((l.flatMap f).map g).sum = (l.map fun b => ((f b).map g).sum).sum := by
  induction l with
  | nil => rfl
  | cons b l ih => rw [List.flatMap_cons, List.map_append, List.sum_append, ih, List.map_cons,
      List.sum_cons]

theorem sum_zipIdx {β : Type} (l : List β) (f : β → Nat → α) (b : β) :
    (l.zipIdx.map fun p => f p.1 p.2).sum = ∑ i ∈ range l.length, f (l.getD i b) i := by
  have key : ∀ (l : List β) (k : Nat), ((l.zipIdx k).map fun p => f p.1 p.2).sum =
      ∑ i ∈ range l.length, f (l.getD i b) (k + i) := by
    intro l
    induction l with
    | nil => simp
    | cons c l ih =>
      intro k
      rw [List.zipIdx_cons, List.map_cons, List.sum_cons, ih (k + 1), List.length_cons,
        Finset.sum_range_succ', add_comm]
      simp only [List.getD_cons_succ, List.getD_cons_zero, Nat.add_zero,
        show ∀ i, k + 1 + i = k + (i + 1) by omega]
  simpa using key l 0

omit [Exact α] in
theorem cast_length_filter {β R : Type} [Semiring R] (f : β → Bool) (l : List β) :
    (((l.filter f).length : Nat) : R) = (l.map fun b => if f b then 1 else 0).sum := by
  induction l with
  | nil => simp
  | cons b l ih =>
    rw [List.filter_cons, List.map_cons, List.sum_cons, ← ih]
    split <;> simp [add_comm]

end Sums

namespace Tour

variable {α : Type} [Exact α] {d : Distances α}

def distance (d : Distances α) (i k : Nat) : α := (distance? d i k).getD 0

def travelled (d : Distances α) (b : Cell → Bool) : α :=
  ∑ i ∈ range d.length, ∑ k ∈ range d.length, if i = k then 0 else
    ∑ slot ∈ range d.length,
      distance d i k * bitValues b ⟨i, slot⟩ * bitValues b ⟨k, (slot + 1) % d.length⟩

/-- By how much the cities and slots miss being used once. -/
def excess (b : Cell → Bool) (n : Nat) : Int :=
  ∑ a ∈ range n, (((rowCount b n a : Int) - 1) ^ 2 + ((columnCount b n a : Int) - 1) ^ 2)

theorem sum_distanceTerms (hd : ∀ row ∈ d, row.length = d.length) (b : Cell → Bool) :
    ((distanceTerms d).map fun e => e.2.2 * bitValues b e.1 * bitValues b e.2.1).sum =
      travelled d b := by
  let f : Nat → Nat → α → α := fun i k w => if i = k then 0 else
    ∑ slot ∈ range d.length, w * bitValues b ⟨i, slot⟩ * bitValues b ⟨k, (slot + 1) % d.length⟩
  have hentry : ∀ (i k : Nat) (w : α),
      ((if i = k then [] else (List.range d.length).map fun slot =>
          ((⟨i, slot⟩, ⟨k, (slot + 1) % d.length⟩, w) : Cell × Cell × α)).map
        fun e => e.2.2 * bitValues b e.1 * bitValues b e.2.1).sum = f i k w := by
    intro i k w
    show _ = if i = k then _ else _
    split
    · rfl
    · rw [List.map_map]
      rfl
  have hrow : ∀ i < d.length, (d.getD i []).length = d.length := fun i hi => by
    rw [List.getD_eq_getElem _ _ hi]
    exact hd _ (List.getElem_mem hi)
  rw [distanceTerms, sum_flatMap]
  simp only [sum_flatMap, hentry]
  rw [sum_zipIdx d (fun row i => (row.zipIdx.map fun p => f i p.2 p.1).sum) []]
  refine Finset.sum_congr rfl fun i hi => ?_
  have hi' := Finset.mem_range.1 hi
  rw [sum_zipIdx _ (fun w k => f i k w) 0, hrow i hi']
  refine Finset.sum_congr rfl fun k hk => ?_
  have hdistance : (d.getD i []).getD k 0 = distance d i k := by
    rw [distance, distance?, List.getElem?_eq_getElem hi', List.getD_eq_getElem _ _ hi',
      List.getD_eq_getElem?_getD]
    rfl
  rw [hdistance]

omit [Exact α] in
theorem mem_distanceTerms (hd : ∀ row ∈ d, row.length = d.length) {e : Cell × Cell × α}
    (he : e ∈ distanceTerms d) :
    e.1 ∈ cells d.length ∧ e.2.1 ∈ cells d.length ∧ e.1 ≠ e.2.1 := by
  obtain ⟨⟨row, i⟩, hrow, he⟩ := List.mem_flatMap.1 he
  obtain ⟨⟨w, k⟩, hw, he⟩ := List.mem_flatMap.1 he
  have hi : i < d.length := List.snd_lt_of_mem_zipIdx hrow
  have hk : k < d.length := hd row (List.fst_mem_of_mem_zipIdx hrow) ▸ List.snd_lt_of_mem_zipIdx hw
  simp only at he
  split at he
  · cases he
  · next hik =>
    obtain ⟨slot, hslot, rfl⟩ := List.mem_map.1 he
    have hslot' := List.mem_range.1 hslot
    exact ⟨mem_cells.2 ⟨hi, hslot'⟩, mem_cells.2 ⟨hk, Nat.mod_lt _ (by omega)⟩,
      fun h => hik (Cell.mk.inj h).1⟩

theorem mem_groups {n : Nat} {vs : List Cell} (h : vs ∈ groups n) :
    vs.Nodup ∧ ∀ v ∈ vs, v ∈ cells n := by
  obtain ⟨a, ha, h⟩ := List.mem_flatMap.1 h
  have ha' := List.mem_range.1 ha
  rcases List.mem_cons.1 h with rfl | h
  · refine ⟨List.nodup_range.map fun x y h => (Cell.mk.inj h).2, fun v hv => ?_⟩
    obtain ⟨slot, hslot, rfl⟩ := List.mem_map.1 hv
    exact mem_cells.2 ⟨ha', List.mem_range.1 hslot⟩
  · obtain rfl := List.mem_singleton.1 h
    refine ⟨List.nodup_range.map fun x y h => (Cell.mk.inj h).1, fun v hv => ?_⟩
    obtain ⟨city, hcity, rfl⟩ := List.mem_map.1 hv
    exact mem_cells.2 ⟨List.mem_range.1 hcity, ha'⟩

theorem adds_weightedModel (hd : ∀ row ∈ d, row.length = d.length) (p : α) :
    (Model.blank .binary (cells d.length)).Adds (weightedModel d p) fun x =>
      ((distanceTerms d).map fun e => e.2.2 * x e.1 * x e.2.1).sum +
        ((groups d.length).map fun vs => squareTerms p vs x + p).sum := by
  have hlabels : (Model.blank .binary (cells d.length) : Model Cell α).labels = cells d.length :=
    Model.labels_blank _ (nodup_cells _)
  have hdistances := Model.adds_coupleAll (Model.wellFormed_blank .binary (cells d.length))
    (fun e he => hlabels.symm ▸ mem_distanceTerms hd he)
  refine hdistances.trans (.foldl hdistances.wellFormed fun vs hvs m hm hm' => ?_)
  obtain ⟨hnodup, hmem⟩ := mem_groups hvs
  refine Model.adds_addOneHot p hm hnodup fun v hv => ?_
  rw [hm', hdistances.labels_eq, hlabels]
  exact hmem v hv

theorem sum_bitValues_range (b : Cell → Bool) (n : Nat) (c : Nat → Cell) :
    (((List.range n).map c).map (bitValues b)).sum =
      ((((List.range n).filter fun k => b (c k)).length : Nat) : α) := by
  rw [cast_length_filter, List.map_map]
  rfl

theorem sum_groups (b : Cell → Bool) (n : Nat) (p : α) :
    ((groups n).map fun vs => squareTerms p vs (bitValues b) + p).sum = p * (excess b n : Int) := by
  have hidempotent : ∀ v, (bitValues b v : α) * bitValues b v = bitValues b v := fun v => by
    rw [bitValues]
    split <;> simp
  simp only [groups, sum_flatMap, List.map_cons, List.map_nil, List.sum_cons, List.sum_nil,
    squareTerms_eq p hidempotent, sum_bitValues_range]
  show ∑ a ∈ range n, _ = _
  rw [excess]
  push_cast
  rw [Finset.mul_sum]
  refine Finset.sum_congr rfl fun a _ => ?_
  rw [rowCount, columnCount]
  ring

theorem evaluate_weightedModel (hd : ∀ row ∈ d, row.length = d.length) (p : α)
    (b : Cell → Bool) :
    (weightedModel d p).evaluate (bitValues b) =
      travelled d b + p * (excess b d.length : Int) := by
  rw [(adds_weightedModel hd p).evaluate_eq, Model.evaluate_blank, zero_add, sum_distanceTerms hd,
    sum_groups]

end Tour

end BinaryQuadratic

import BinaryQuadratic.Proofs.Problem.Tour.Energy

/-! Tours, the excess of assignments that are none, and the default penalty: twice the penalty is
more than any tour, and an assignment that is no tour pays it at least twice. -/

namespace BinaryQuadratic.Tour

open Finset Coefficient

section Excess

variable {b : Cell → Bool} {n : Nat} {t : List Nat}

theorem Encodes.columnCount_eq (h : Encodes b n t) {slot : Nat} (hslot : slot < n) :
    columnCount b n slot = 1 := by
  obtain ⟨-, hlen, hlt⟩ := perm_range_iff.1 h.perm
  have hslot' : slot < t.length := hlen ▸ hslot
  rw [columnCount, List.length_eq_one_iff]
  refine ⟨t[slot], filter_range_eq_singleton_iff.2 ⟨hlt _ (List.getElem_mem hslot'), ?_⟩⟩
  intro city hcity
  rw [h.bit_iff city hcity slot hslot, List.getElem?_eq_getElem hslot', Option.some.injEq, eq_comm]

theorem Encodes.rowCount_eq (h : Encodes b n t) {city : Nat} (hcity : city < n) :
    rowCount b n city = 1 := by
  obtain ⟨hnodup, hlen, -⟩ := perm_range_iff.1 h.perm
  obtain ⟨slot, hslot, rfl⟩ := List.mem_iff_getElem.1 (h.perm.mem_iff.2 (List.mem_range.2 hcity))
  rw [rowCount, List.length_eq_one_iff]
  refine ⟨slot, filter_range_eq_singleton_iff.2 ⟨hlen ▸ hslot, fun k hk => ?_⟩⟩
  rw [h.bit_iff _ hcity k hk, List.getElem?_eq_some_iff]
  constructor
  · rintro ⟨hk', heq⟩
    exact (hnodup.getElem_inj_iff).1 heq
  · rintro rfl
    exact ⟨hslot, rfl⟩

theorem Encodes.excess_eq (h : Encodes b n t) : excess b n = 0 := by
  apply Finset.sum_eq_zero
  intro a ha
  have ha' := Finset.mem_range.1 ha
  rw [h.rowCount_eq ha', h.columnCount_eq ha']
  norm_num

theorem sum_rowCount (b : Cell → Bool) (n : Nat) :
    ∑ a ∈ range n, (rowCount b n a : Int) = ∑ a ∈ range n, (columnCount b n a : Int) := by
  simp only [rowCount, columnCount, cast_length_filter]
  show ∑ a ∈ range n, ∑ k ∈ range n, (if b ⟨a, k⟩ then (1 : Int) else 0) =
    ∑ a ∈ range n, ∑ k ∈ range n, if b ⟨k, a⟩ then (1 : Int) else 0
  exact Finset.sum_comm

theorem even_excess (b : Cell → Bool) (n : Nat) : Even (excess b n) := by
  -- a square differs from its root by an even number, and rows and columns have equal sums of roots
  have hsplit : excess b n =
      ∑ a ∈ range n, (((rowCount b n a : Int) - 1) * ((rowCount b n a : Int) - 1 - 1) +
        ((columnCount b n a : Int) - 1) * ((columnCount b n a : Int) - 1 - 1)) +
      2 * ∑ a ∈ range n, ((rowCount b n a : Int) - 1) := by
    have hlines : 2 * ∑ a ∈ range n, ((rowCount b n a : Int) - 1) =
        ∑ a ∈ range n, (((rowCount b n a : Int) - 1) + ((columnCount b n a : Int) - 1)) := by
      rw [Finset.sum_add_distrib, Finset.sum_sub_distrib, Finset.sum_sub_distrib, sum_rowCount]
      ring
    rw [hlines, excess, ← Finset.sum_add_distrib]
    exact Finset.sum_congr rfl fun a _ => by ring
  rw [hsplit]
  refine Even.add (Finset.even_sum _ fun a _ => ?_) (even_two_mul _)
  exact (Int.even_mul_pred_self _).add (Int.even_mul_pred_self _)

theorem excess_nonneg (b : Cell → Bool) (n : Nat) : 0 ≤ excess b n :=
  Finset.sum_nonneg fun _ _ => by positivity

theorem two_le_excess (h : ¬ ∃ t, Encodes b n t) : 2 ≤ excess b n := by
  have hne : excess b n ≠ 0 := by
    intro hzero
    have hlines : ∀ a < n, rowCount b n a = 1 ∧ columnCount b n a = 1 := by
      intro a ha
      have hsum := (Finset.sum_eq_zero_iff_of_nonneg fun _ _ => by positivity).1 hzero a
        (Finset.mem_range.2 ha)
      obtain ⟨hrow, hcolumn⟩ :=
        (add_eq_zero_iff_of_nonneg (sq_nonneg _) (sq_nonneg _)).1 hsum
      have hrow' := pow_eq_zero_iff two_ne_zero |>.1 hrow
      have hcolumn' := pow_eq_zero_iff two_ne_zero |>.1 hcolumn
      omega
    exact h (exists_encodes (fun a ha => (hlines a ha).1) fun a ha => (hlines a ha).2)
  obtain ⟨k, hk⟩ := even_excess b n
  have := excess_nonneg b n
  omega

end Excess

section Lengths

variable {α : Type} [Exact α] {d : Distances α} {t : List Nat}

def tourLength (d : Distances α) (t : List Nat) : α :=
  ∑ slot ∈ range d.length,
    distance d (t.getD slot 0) (t.getD ((slot + 1) % d.length) 0)

theorem distance?_eq (hd : ∀ row ∈ d, row.length = d.length) {i k : Nat} (hi : i < d.length)
    (hk : k < d.length) : distance? d i k = some (distance d i k) := by
  have hk' : k < d[i].length := (hd _ (List.getElem_mem hi)).symm ▸ hk
  have h : distance? d i k = some d[i][k] := by
    rw [distance?, List.getElem?_eq_getElem hi]
    exact List.getElem?_eq_getElem hk'
  rw [distance, h, Option.getD_some]

theorem getElem?_legs {slot : Nat} (h : slot < t.length) :
    (legs t)[slot]? = some (t.getD slot 0, t.getD ((slot + 1) % t.length) 0) := by
  have hnext : (t.drop 1 ++ t.take 1)[slot]? = some (t.getD ((slot + 1) % t.length) 0) := by
    by_cases hlast : slot + 1 < t.length
    · rw [Nat.mod_eq_of_lt hlast, List.getElem?_append_left (by simp; omega), List.getElem?_drop,
        Nat.add_comm, List.getElem?_eq_getElem hlast, List.getD_eq_getElem _ _ hlast]
    · have hslot : slot + 1 = t.length := by omega
      rw [hslot, Nat.mod_self, List.getElem?_append_right (by simp; omega), List.length_drop,
        ← hslot, Nat.add_sub_cancel, Nat.sub_self, List.getElem?_take_of_lt Nat.one_pos,
        List.getElem?_eq_getElem (by omega), List.getD_eq_getElem _ _ (by omega)]
  rw [legs, List.getElem?_zip_eq_some]
  exact ⟨by rw [List.getElem?_eq_getElem h, List.getD_eq_getElem _ _ h], hnext⟩

theorem getD_lt {n slot : Nat} (ht : t.Perm (List.range n)) (hslot : slot < n) :
    t.getD slot 0 < n := by
  obtain ⟨-, hlen, hlt⟩ := perm_range_iff.1 ht
  rw [List.getD_eq_getElem _ _ (hlen ▸ hslot)]
  exact hlt _ (List.getElem_mem _)

theorem tourDistance?_eq (hd : ∀ row ∈ d, row.length = d.length)
    (ht : t.Perm (List.range d.length)) : tourDistance? d t = some (tourLength d t) := by
  have hlen : t.length = d.length := (perm_range_iff.1 ht).2.1
  have hlegs : (legs t).mapM (fun leg => distance? d leg.1 leg.2) =
      some ((List.range d.length).map fun slot =>
        distance d (t.getD slot 0) (t.getD ((slot + 1) % d.length) 0)) := by
    rw [mapM_eq_some_iff]
    apply List.ext_getElem?
    intro slot
    by_cases hslot : slot < d.length
    · have hnext : (slot + 1) % d.length < d.length := Nat.mod_lt _ (by omega)
      simp only [List.getElem?_map, getElem?_legs (hlen ▸ hslot), List.getElem?_range hslot, hlen,
        Option.map_some, distance?_eq hd (getD_lt ht hslot) (getD_lt ht hnext)]
    · have hlegs : (legs t).length ≤ slot := by simp [legs]; omega
      simp [List.getElem?_eq_none hlegs, hslot]
  rw [tourDistance?, hlegs, Option.map_some, sum_eq]
  rfl

def loop (d : Distances α) : α := if d.length = 1 then distance d 0 0 else 0

theorem Encodes.bitValues_eq {b : Cell → Bool} (h : Encodes b d.length t) {city slot : Nat}
    (hcity : city < d.length) (hslot : slot < d.length) :
    (bitValues b ⟨city, slot⟩ : α) = if city = t.getD slot 0 then 1 else 0 := by
  have hlen : t.length = d.length := (perm_range_iff.1 h.perm).2.1
  rw [bitValues, List.getD_eq_getElem _ _ (hlen ▸ hslot)]
  refine if_congr ?_ rfl rfl
  rw [h.bit_iff city hcity slot hslot, List.getElem?_eq_getElem (hlen ▸ hslot), Option.some.injEq,
    eq_comm]

/-- A tour pays for the leg at each slot, unless that leg stays where it is. -/
theorem travelled_eq {b : Cell → Bool} (h : Encodes b d.length t) :
    travelled d b = ∑ slot ∈ range d.length,
      if t.getD slot 0 = t.getD ((slot + 1) % d.length) 0 then 0
      else distance d (t.getD slot 0) (t.getD ((slot + 1) % d.length) 0) := by
  have hterm : ∀ i ∈ range d.length, ∀ k ∈ range d.length,
      (if i = k then 0 else ∑ slot ∈ range d.length,
        distance d i k * bitValues b ⟨i, slot⟩ * bitValues b ⟨k, (slot + 1) % d.length⟩) =
      ∑ slot ∈ range d.length, if i = t.getD slot 0 then
        if k = t.getD ((slot + 1) % d.length) 0 then if i = k then 0 else distance d i k else 0
        else 0 := by
    intro i hi k hk
    by_cases hik : i = k
    · simp [hik]
    · rw [if_neg hik]
      refine Finset.sum_congr rfl fun slot hslot => ?_
      have hslot' := Finset.mem_range.1 hslot
      rw [h.bitValues_eq (Finset.mem_range.1 hi) hslot', h.bitValues_eq (Finset.mem_range.1 hk)
        (Nat.mod_lt _ (by omega)), if_neg hik]
      split_ifs <;> simp
  -- with the slots outermost, the sums over the cities pick those of the tour
  calc travelled d b
      = ∑ i ∈ range d.length, ∑ k ∈ range d.length, ∑ slot ∈ range d.length,
          if i = t.getD slot 0 then
            if k = t.getD ((slot + 1) % d.length) 0 then if i = k then 0 else distance d i k else 0
          else 0 :=
        Finset.sum_congr rfl fun i hi => Finset.sum_congr rfl fun k hk => hterm i hi k hk
    _ = ∑ slot ∈ range d.length, ∑ i ∈ range d.length, ∑ k ∈ range d.length,
          if i = t.getD slot 0 then
            if k = t.getD ((slot + 1) % d.length) 0 then if i = k then 0 else distance d i k else 0
          else 0 := by
        rw [Finset.sum_congr rfl fun i _ => Finset.sum_comm, Finset.sum_comm]
    _ = _ := by
        refine Finset.sum_congr rfl fun slot hslot => ?_
        have hslot' := Finset.mem_range.1 hslot
        have hnext : (slot + 1) % d.length < d.length := Nat.mod_lt _ (by omega)
        simp only [Finset.sum_ite_irrel, Finset.sum_const_zero, Finset.sum_ite_eq',
          Finset.mem_range, getD_lt h.perm hslot', getD_lt h.perm hnext, if_true]

theorem travelled_add_loop {b : Cell → Bool} (h : Encodes b d.length t) :
    travelled d b + loop d = tourLength d t := by
  obtain ⟨hnodup, hlen, -⟩ := perm_range_iff.1 h.perm
  rw [travelled_eq h, loop]
  by_cases hone : d.length = 1
  · have hzero : t.getD 0 0 = 0 := by
      have := getD_lt h.perm (by omega : 0 < d.length)
      omega
    simp only [tourLength, hone, Finset.sum_range_one, Nat.zero_add, Nat.mod_self, hzero, if_true]
    exact zero_add _
  · rw [if_neg hone, add_zero]
    -- with two slots or more, consecutive slots differ and so do their cities
    refine Finset.sum_congr rfl fun slot hslot => if_neg fun heq => ?_
    have hslot' := Finset.mem_range.1 hslot
    have hnext : (slot + 1) % d.length < d.length := Nat.mod_lt _ (by omega)
    rw [List.getD_eq_getElem _ _ (hlen ▸ hslot'), List.getD_eq_getElem _ _ (hlen ▸ hnext)] at heq
    have hsame : slot = (slot + 1) % d.length := (hnodup.getElem_inj_iff).1 heq
    by_cases hlast : slot + 1 < d.length
    · rw [Nat.mod_eq_of_lt hlast] at hsame
      omega
    · rw [show slot + 1 = d.length by omega, Nat.mod_self] at hsame
      omega

section Bounds

def largest (d : Distances α) : α := d.flatten.foldl maxNum 0

theorem distance_eq_zero_or_mem (d : Distances α) (i k : Nat) :
    distance d i k = 0 ∨ ∃ row ∈ d, distance d i k ∈ row := by
  cases h : distance? d i k with
  | none => exact .inl (by rw [distance, h, Option.getD_none])
  | some x =>
    obtain ⟨row, hrow, hx⟩ := Option.bind_eq_some_iff.1 h
    refine .inr ⟨row, List.mem_of_getElem? hrow, ?_⟩
    rw [distance, h, Option.getD_some]
    exact List.mem_of_getElem? hx

theorem distance_le_largest (d : Distances α) (i k : Nat) : distance d i k ≤ largest d := by
  obtain ⟨hzero, hall⟩ := foldl_maxNum d.flatten 0
  rcases distance_eq_zero_or_mem d i k with h | ⟨row, hrow, hmem⟩
  · exact h.le.trans hzero
  · exact hall _ (List.mem_flatten.2 ⟨row, hrow, hmem⟩)

theorem tourLength_le (d : Distances α) (t : List Nat) :
    tourLength d t ≤ largest d * (d.length : Nat) := by
  have h := Finset.sum_le_card_nsmul (range d.length)
    (fun slot => distance d (t.getD slot 0) (t.getD ((slot + 1) % d.length) 0)) (largest d)
    fun slot _ => distance_le_largest d _ _
  rwa [Finset.card_range, nsmul_eq_mul, mul_comm] at h

theorem defaultPenalty_pos (d : Distances α) : 0 < defaultPenalty d := by
  rw [defaultPenalty]
  split
  · assumption
  · simp

theorem tourLength_le_defaultPenalty (d : Distances α) (t : List Nat) :
    tourLength d t ≤ defaultPenalty d := by
  refine (tourLength_le d t).trans ?_
  rw [defaultPenalty]
  split
  · exact le_refl _
  · next h => exact (not_lt.1 h).trans (by simp)

theorem tourLength_lt (d : Distances α) (t : List Nat) : tourLength d t < 2 * defaultPenalty d := by
  have hpos := defaultPenalty_pos d
  have hle := tourLength_le_defaultPenalty d t
  linarith

variable (hnonneg : ∀ row ∈ d, ∀ x ∈ row, 0 ≤ x)

include hnonneg

theorem distance_nonneg (i k : Nat) : 0 ≤ distance d i k := by
  rcases distance_eq_zero_or_mem d i k with h | ⟨row, hrow, hmem⟩
  · exact h.ge
  · exact hnonneg row hrow _ hmem

theorem loop_nonneg : 0 ≤ loop d := by
  rw [loop]
  split
  · exact distance_nonneg hnonneg 0 0
  · exact le_refl _

theorem travelled_nonneg (b : Cell → Bool) : 0 ≤ travelled d b := by
  have hbit : ∀ c, (0 : α) ≤ bitValues b c := fun c => by
    rw [bitValues]
    split <;> simp
  refine Finset.sum_nonneg fun i _ => Finset.sum_nonneg fun k _ => ?_
  split
  · exact le_refl _
  · exact Finset.sum_nonneg fun slot _ =>
      mul_nonneg (mul_nonneg (distance_nonneg hnonneg i k) (hbit _)) (hbit _)

end Bounds

end Lengths

end BinaryQuadratic.Tour

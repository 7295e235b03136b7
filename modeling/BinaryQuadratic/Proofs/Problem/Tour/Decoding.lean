import BinaryQuadratic.Proofs.Model.Assignment
import BinaryQuadratic.Problem.Tour.Model

/-! An assignment is read as a tour if and only if its ones put each city at one slot and one city
at each slot. -/

namespace BinaryQuadratic.Tour

/-- The ones put the cities of a tour at their slots, and no city anywhere else. -/
structure Encodes (b : Cell → Bool) (n : Nat) (t : List Nat) : Prop where
  perm : t.Perm (List.range n)
  bit_iff : ∀ city < n, ∀ slot < n, b ⟨city, slot⟩ = true ↔ t[slot]? = some city

theorem Encodes.congr {b b' : Cell → Bool} {n : Nat} {t : List Nat} (h : Encodes b n t)
    (hb : ∀ city < n, ∀ slot < n, b' ⟨city, slot⟩ = b ⟨city, slot⟩) : Encodes b' n t :=
  ⟨h.perm, fun city hcity slot hslot => by
    rw [hb city hcity slot hslot, h.bit_iff city hcity slot hslot]⟩

theorem mem_cells {n : Nat} {c : Cell} : c ∈ cells n ↔ c.city < n ∧ c.slot < n := by
  obtain ⟨city, slot⟩ := c
  simp [cells]

theorem nodup_cells (n : Nat) : (cells n).Nodup := by
  rw [cells, List.nodup_flatMap]
  constructor
  · intro city _
    exact List.nodup_range.map fun a b h => (Cell.mk.inj h).2
  · refine List.nodup_range.imp fun hne => ?_
    intro c hc hc'
    obtain ⟨_, _, rfl⟩ := List.mem_map.1 hc
    obtain ⟨_, _, h⟩ := List.mem_map.1 hc'
    exact hne (Cell.mk.inj h).1.symm

section Lists

theorem mapM_eq_some_iff {β γ : Type} {f : β → Option γ} {l : List β} {r : List γ} :
    l.mapM f = some r ↔ l.map f = r.map some := by
  induction l generalizing r with
  | nil => cases r <;> simp
  | cons x l ih =>
    rw [List.mapM_cons, List.map_cons]
    cases hx : f x with
    | none => cases r <;> simp
    | some y =>
      cases r with
      | nil => cases hl : l.mapM f <;> simp
      | cons z r =>
        rw [List.map_cons, List.cons.injEq, ← ih]
        cases hl : l.mapM f <;> simp

theorem filter_range_eq_singleton_iff {n c : Nat} {f : Nat → Bool} :
    (List.range n).filter f = [c] ↔ c < n ∧ ∀ k < n, f k = true ↔ k = c := by
  constructor
  · intro h
    have hmem : ∀ k, k < n ∧ f k = true ↔ k = c := fun k => by
      rw [← List.mem_range, ← List.mem_filter, h, List.mem_singleton]
    exact ⟨((hmem c).2 rfl).1, fun k hk => ⟨fun hf => (hmem k).1 ⟨hk, hf⟩,
      fun hkc => ((hmem k).2 hkc).2⟩⟩
  · rintro ⟨hc, h⟩
    have hcongr : (List.range n).filter f = (List.range n).filter (· == c) := by
      apply List.filter_congr
      intro k hk
      rw [Bool.eq_iff_iff, h k (List.mem_range.1 hk), beq_iff_eq]
    rw [hcongr, List.filter_beq, List.count_eq_one_of_mem List.nodup_range (List.mem_range.2 hc)]
    rfl

theorem perm_range_iff {n : Nat} {t : List Nat} :
    t.Perm (List.range n) ↔ t.Nodup ∧ t.length = n ∧ ∀ c ∈ t, c < n := by
  constructor
  · intro h
    exact ⟨h.nodup_iff.2 List.nodup_range, by simpa using h.length_eq,
      fun c hc => List.mem_range.1 (h.mem_iff.1 hc)⟩
  · rintro ⟨hnodup, hlen, hlt⟩
    have hsub : t.Subperm (List.range n) :=
      hnodup.subperm fun c hc => List.mem_range.2 (hlt c hc)
    exact hsub.perm_of_length_le (by simp [hlen])

end Lists

section Decoding

variable {n : Nat} {s : Assignment Cell} {t : List Nat}

theorem cityAt?_eq_some_iff {slot c : Nat} : cityAt? s n slot = some c ↔
    c < n ∧ ∀ city < n, s ⟨city, slot⟩ = some 1 ↔ city = c := by
  have hone : cityAt? s n slot = some c ↔
      (List.range n).filter (fun city => s ⟨city, slot⟩ = some 1) = [c] := by
    unfold cityAt?
    split
    · next city h => rw [h, Option.some.injEq, List.cons.injEq, and_iff_left rfl]
    · next h =>
      exact ⟨nofun, fun h' => absurd h' (h c)⟩
  rw [hone, filter_range_eq_singleton_iff]
  simp only [decide_eq_true_eq]

theorem visitSlots?_cons_eq_some_iff {slot : Nat} {rest tour : List Nat} :
    visitSlots? s n (slot :: rest) tour = some t ↔
      ∃ city, cityAt? s n slot = some city ∧ city ∉ tour ∧
        visitSlots? s n rest (tour ++ [city]) = some t := by
  rw [visitSlots?]
  cases cityAt? s n slot with
  | none => simp
  | some city => by_cases h : city ∈ tour <;> simp [h]

theorem visitSlots?_eq_some_iff {slots tour : List Nat} (htour : tour.Nodup) :
    visitSlots? s n slots tour = some t ↔
      ∃ cities, slots.map (cityAt? s n) = cities.map some ∧ tour ++ cities = t ∧ t.Nodup := by
  induction slots generalizing tour with
  | nil =>
    rw [visitSlots?, Option.some.injEq]
    constructor
    · rintro rfl
      exact ⟨[], rfl, List.append_nil tour, htour⟩
    · rintro ⟨cities, hcities, rfl, -⟩
      rw [List.map_eq_nil_iff.1 hcities.symm, List.append_nil]
  | cons slot rest ih =>
    rw [visitSlots?_cons_eq_some_iff]
    constructor
    · rintro ⟨city, hcity, hmem, hrest⟩
      have htour' : (tour ++ [city]).Nodup := List.concat_eq_append ▸ htour.concat hmem
      obtain ⟨cities, hcities, rfl, hnodup⟩ := (ih htour').1 hrest
      refine ⟨city :: cities, ?_, by simp, hnodup⟩
      rw [List.map_cons, List.map_cons, hcity, hcities]
    · rintro ⟨_ | ⟨city, cities⟩, hcities, rfl, hnodup⟩
      · cases hcities
      · obtain ⟨hcity, hrest⟩ := List.cons.inj hcities
        have hmem : city ∉ tour := fun h =>
          List.disjoint_of_nodup_append hnodup h List.mem_cons_self
        have happend : tour ++ city :: cities = tour ++ [city] ++ cities := by simp
        -- the cities so far stay distinct, since those of the whole tour are
        have htour' : (tour ++ [city]).Nodup := (happend ▸ hnodup).of_append_left
        exact ⟨city, hcity, hmem, (ih htour').2 ⟨cities, hrest, happend.symm, hnodup⟩⟩

theorem decode?_eq_some_iff_map :
    decode? s n = some t ↔ (List.range n).map (cityAt? s n) = t.map some ∧ t.Nodup := by
  rw [decode?, visitSlots?_eq_some_iff List.nodup_nil]
  constructor
  · rintro ⟨cities, hcities, rfl, hnodup⟩
    exact ⟨hcities, hnodup⟩
  · exact fun h => ⟨t, h.1, rfl, h.2⟩

theorem decode?_eq_some_iff_encodes :
    decode? s n = some t ↔ Encodes (fun c => s c = some 1) n t := by
  rw [decode?_eq_some_iff_map]
  constructor
  · rintro ⟨hmap, hnodup⟩
    have hlen : t.length = n := by simpa using (congrArg List.length hmap).symm
    have hcity : ∀ slot (h : slot < t.length), cityAt? s n slot = some t[slot] := by
      intro slot h
      have hget := congrArg (fun l : List (Option Nat) => l[slot]?) hmap
      simpa [h, hlen ▸ h] using hget
    refine ⟨perm_range_iff.2 ⟨hnodup, hlen, fun c hc => ?_⟩, fun city hcity' slot hslot => ?_⟩
    · obtain ⟨slot, hslot, rfl⟩ := List.mem_iff_getElem.1 hc
      exact (cityAt?_eq_some_iff.1 (hcity slot hslot)).1
    · rw [decide_eq_true_eq, (cityAt?_eq_some_iff.1 (hcity slot (hlen ▸ hslot))).2 city hcity',
        List.getElem?_eq_getElem (hlen ▸ hslot), Option.some.injEq, eq_comm]
  · rintro ⟨hperm, hbit⟩
    obtain ⟨hnodup, hlen, hlt⟩ := perm_range_iff.1 hperm
    refine ⟨?_, hnodup⟩
    apply List.ext_getElem
    · simp [hlen]
    · intro slot h₁ h₂
      have hslot : slot < n := by simpa using h₁
      have hslot' : slot < t.length := hlen ▸ hslot
      rw [List.getElem_map, List.getElem_map, List.getElem_range, cityAt?_eq_some_iff]
      refine ⟨hlt _ (List.getElem_mem hslot'), fun city hcity => ?_⟩
      rw [← decide_eq_true_eq (p := s ⟨city, slot⟩ = some 1), hbit city hcity slot hslot,
        List.getElem?_eq_getElem hslot', Option.some.injEq, eq_comm]

theorem decode?_eq_some_iff_of_bits {b : Cell → Bool}
    (h : ∀ c ∈ cells n, s c = some (Vartype.binary.value (b c))) :
    decode? s n = some t ↔ Encodes b n t := by
  have hbit : ∀ city < n, ∀ slot < n, b ⟨city, slot⟩ = decide (s ⟨city, slot⟩ = some 1) := by
    intro city hcity slot hslot
    rw [h ⟨city, slot⟩ (mem_cells.2 ⟨hcity, hslot⟩)]
    cases b ⟨city, slot⟩ <;> simp [Vartype.value]
  rw [decode?_eq_some_iff_encodes]
  exact ⟨fun h => h.congr hbit,
    fun h => h.congr fun city hcity slot hslot => (hbit city hcity slot hslot).symm⟩

theorem decode?_eq_some_iff (hs : s.InDomain .binary (cells n)) :
    decode? s n = some t ↔ Encodes (s.bit .binary) n t :=
  decode?_eq_some_iff_of_bits hs.eq_value

end Decoding

def rowCount (b : Cell → Bool) (n city : Nat) : Nat :=
  ((List.range n).filter fun slot => b ⟨city, slot⟩).length

def columnCount (b : Cell → Bool) (n slot : Nat) : Nat :=
  ((List.range n).filter fun city => b ⟨city, slot⟩).length

theorem exists_encodes {b : Cell → Bool} {n : Nat} (hrow : ∀ a < n, rowCount b n a = 1)
    (hcolumn : ∀ a < n, columnCount b n a = 1) : ∃ t, Encodes b n t := by
  have hslot : ∀ slot, ∃ c, slot < n → c < n ∧ ∀ city < n, b ⟨city, slot⟩ = true ↔ city = c := by
    intro slot
    by_cases h : slot < n
    · obtain ⟨c, hc⟩ := List.length_eq_one_iff.1 (hcolumn slot h)
      exact ⟨c, fun _ => filter_range_eq_singleton_iff.1 hc⟩
    · exact ⟨0, fun h' => absurd h' h⟩
  choose city hcity using hslot
  -- two slots of one city would be two ones in its row
  have hinj : ∀ i < n, ∀ j < n, city i = city j → i = j := by
    intro i hi j hj hij
    obtain ⟨hlt, hi'⟩ := hcity i hi
    obtain ⟨-, hj'⟩ := hcity j hj
    obtain ⟨slot, hslot⟩ := List.length_eq_one_iff.1 (hrow (city i) hlt)
    have honly := (filter_range_eq_singleton_iff.1 hslot).2
    rw [(honly i hi).1 ((hi' _ hlt).2 rfl), (honly j hj).1 ((hj' _ hlt).2 hij)]
  refine ⟨(List.range n).map city, perm_range_iff.2 ⟨?_, by simp, ?_⟩, ?_⟩
  · exact List.Nodup.map_on (fun i hi j hj => hinj i (List.mem_range.1 hi) j (List.mem_range.1 hj))
      List.nodup_range
  · intro c hc
    obtain ⟨slot, hslot, rfl⟩ := List.mem_map.1 hc
    exact (hcity slot (List.mem_range.1 hslot)).1
  · intro c hc slot hslot
    rw [(hcity slot hslot).2 c hc]
    simp [hslot, eq_comm]

def assignmentOf (t : List Nat) : Assignment Cell := fun c =>
  some (Vartype.binary.value (t[c.slot]? = some c.city))

theorem inDomain_assignmentOf (t : List Nat) (vs : List Cell) :
    (assignmentOf t).InDomain .binary vs := fun _ _ => ⟨_, rfl⟩

theorem encodes_assignmentOf {n : Nat} {t : List Nat} (h : t.Perm (List.range n)) :
    Encodes ((assignmentOf t).bit .binary) n t := by
  refine ⟨h, fun city _ slot _ => ?_⟩
  simp [Assignment.bit, assignmentOf]

/-- An assignment is read as a tour exactly if the tour is an order of all cities and, among the
cells, its own are those of value one. So a tour is read from its own assignment, and whatever is
read as the same tour has the same ones. -/
theorem decode?_reads_permutations (n : Nat) :
    (∀ (s : Assignment Cell) (t : List Nat), decode? s n = some t ↔ t.Perm (List.range n) ∧
      ∀ city < n, ∀ slot < n, s ⟨city, slot⟩ = some 1 ↔ t[slot]? = some city) ∧
    (∀ s : Assignment Cell, decode? s n = none ↔ ∀ t : List Nat, t.Perm (List.range n) →
      ∃ city < n, ∃ slot < n, ¬(s ⟨city, slot⟩ = some 1 ↔ t[slot]? = some city)) ∧
    (∀ t : List Nat, t.Perm (List.range n) → decode? (assignmentOf t) n = some t) ∧
    ∀ (s s' : Assignment Cell) (t : List Nat), decode? s n = some t → decode? s' n = some t →
      ∀ city < n, ∀ slot < n, s ⟨city, slot⟩ = some 1 ↔ s' ⟨city, slot⟩ = some 1 := by
  have hiff : ∀ (s : Assignment Cell) (t : List Nat), decode? s n = some t ↔
      t.Perm (List.range n) ∧
        ∀ city < n, ∀ slot < n, s ⟨city, slot⟩ = some 1 ↔ t[slot]? = some city := by
    intro s t
    rw [decode?_eq_some_iff_encodes]
    constructor
    · exact fun h => ⟨h.perm, fun city hcity slot hslot => by
        simpa using h.bit_iff city hcity slot hslot⟩
    · exact fun h => ⟨h.1, fun city hcity slot hslot => by simpa using h.2 city hcity slot hslot⟩
  refine ⟨hiff, fun s => ?_, fun t ht => ?_, fun s s' t hs hs' city hcity slot hslot => ?_⟩
  · simp only [Option.eq_none_iff_forall_ne_some, ne_eq, hiff, not_and, not_forall, exists_prop]
  · exact (decode?_eq_some_iff (inDomain_assignmentOf t _)).2 (encodes_assignmentOf ht)
  · rw [((hiff s t).1 hs).2 city hcity slot hslot, ((hiff s' t).1 hs').2 city hcity slot hslot]

theorem decode?_reads_permutations_three_cities :
    let t := [1, 0, 2]
    let s : Assignment Cell := OrderedMap.find? (.ofList
      [(⟨2, 2⟩, 1), (⟨1, 0⟩, 1), (⟨9, 0⟩, 1), (⟨0, 1⟩, 1), (⟨2, 1⟩, -7)])
    let s' : Assignment Cell := OrderedMap.find? (.ofList
      [(⟨1, 0⟩, 1), (⟨0, 0⟩, 0), (⟨0, 1⟩, 1), (⟨1, 2⟩, 100), (⟨2, 2⟩, 1)])
    t.Perm (List.range 3) ∧ decode? (assignmentOf t) 3 = some t ∧
      decode? s 3 = some t ∧ decode? s' 3 = some t ∧
      ∀ city < 3, ∀ slot < 3, s ⟨city, slot⟩ = some 1 ↔ s' ⟨city, slot⟩ = some 1 := by
  intro t s s'
  obtain ⟨hiff, -, hown, hones⟩ := decode?_reads_permutations 3
  have ht : t.Perm (List.range 3) := by decide
  have hs : decode? s 3 = some t := (hiff s t).2 ⟨ht, by decide⟩
  have hs' : decode? s' 3 = some t := (hiff s' t).2 ⟨ht, by decide⟩
  exact ⟨ht, hown t ht, hs, hs', hones s s' t hs hs'⟩

end BinaryQuadratic.Tour

import BinaryQuadratic.Proofs.Coefficient.Binary64
import BinaryQuadratic.Proofs.Coefficient.TotalOrder
import BinaryQuadratic.Proofs.SampleSet

/-! Sample sets under truncation and conversion. Records are sorted by the total order and compared
as numbers; the energies ascend in both senses, through all that happens to a set, so that the
records of the lowest energy stand together in front. -/

namespace BinaryQuadratic.SampleSet

open Coefficient

variable {V α : Type} {s : SampleSet V α} {t : Vartype}

theorem takeWhile_eq_filter {β : Type} {p : β → Bool} {l : List β}
    (h : l.Pairwise fun a b => p b = true → p a = true) : l.takeWhile p = l.filter p := by
  induction l with
  | nil => rfl
  | cons a l ih =>
    obtain ⟨hhead, htail⟩ := List.pairwise_cons.1 h
    by_cases ha : p a = true
    · rw [List.takeWhile_cons_of_pos ha, List.filter_cons_of_pos ha, ih htail]
    · rw [List.takeWhile_cons_of_neg ha, eq_comm, List.filter_eq_nil_iff]
      rintro b (_ | ⟨_, hb⟩) hpb
      · exact ha hpb
      · exact ha (hhead b hb hpb)

section Conversion

def InDomain (s : SampleSet V α) : Prop :=
  ∀ r ∈ s.records, ∀ x ∈ r.sample.values, x ∈ s.vartype.values

def samples (s : SampleSet V α) : List (Sample V) := s.records.map Record.sample

@[simp] theorem vartype_changeVartype (s : SampleSet V α) (t : Vartype) :
    (s.changeVartype t).vartype = t := by
  unfold changeVartype
  split
  · next h => exact h.symm
  · rfl

theorem changeVartype_vartype (s : SampleSet V α) : s.changeVartype s.vartype = s := if_pos rfl

theorem changeVartype_of_ne (h : t ≠ s.vartype) : s.changeVartype t =
    ⟨t, s.records.map fun r => { r with sample := r.sample.map (reexpress s.vartype t) }⟩ :=
  if_neg h

theorem reexpress_mem (old t : Vartype) (x : Int) : reexpress old t x ∈ t.values :=
  Vartype.mem_values_iff.2 ⟨_, rfl⟩

theorem bit?_reexpress {x : Int} (hx : x ∈ s.vartype.values) :
    t.bit? (reexpress s.vartype t x) = s.vartype.bit? x := by
  obtain ⟨b, rfl⟩ := Vartype.mem_values_iff.1 hx
  rw [reexpress_value, Vartype.bit?_value, Vartype.bit?_value]

theorem reexpress_reexpress {x : Int} (hx : x ∈ s.vartype.values) :
    reexpress t s.vartype (reexpress s.vartype t x) = x := by
  obtain ⟨b, rfl⟩ := Vartype.mem_values_iff.1 hx
  rw [reexpress_value, reexpress_value]

theorem InDomain.changeVartype (h : s.InDomain) (t : Vartype) : (s.changeVartype t).InDomain := by
  by_cases ht : t = s.vartype
  · rwa [ht, changeVartype_vartype]
  · rw [changeVartype_of_ne ht]
    intro r' hr' x' hx'
    obtain ⟨r, -, rfl⟩ := List.mem_map.1 hr'
    rw [OrderedMap.values_map] at hx'
    obtain ⟨x, -, rfl⟩ := List.mem_map.1 hx'
    exact reexpress_mem s.vartype t x

theorem InDomain.changeVartype_changeVartype (h : s.InDomain) (t : Vartype) :
    (s.changeVartype t).changeVartype s.vartype = s := by
  by_cases ht : t = s.vartype
  · rw [ht, changeVartype_vartype, changeVartype_vartype]
  · have hback : ∀ r ∈ s.records, (r.sample.map (reexpress s.vartype t)).map
        (reexpress t s.vartype) = r.sample := by
      intro r hr
      refine OrderedMap.eq_of_keys_of_values (by simp) ?_
      rw [OrderedMap.values_map, OrderedMap.values_map, List.map_map]
      exact (List.map_congr_left fun x hx => reexpress_reexpress (h r hr x hx)).trans
        (List.map_id _)
    rw [changeVartype_of_ne ht, changeVartype_of_ne (Ne.symm ht)]
    refine congrArg (mk s.vartype) ?_
    rw [List.map_map]
    refine (List.map_congr_left fun r hr => ?_).trans (List.map_id _)
    rw [Function.comp_apply, hback r hr]
    rfl

theorem samples_changeVartype_congr {i j : Nat} (h : s.samples[i]? = s.samples[j]?) :
    (s.changeVartype t).samples[i]? = (s.changeVartype t).samples[j]? := by
  by_cases ht : t = s.vartype
  · rwa [ht, changeVartype_vartype]
  · have hsamples : (s.changeVartype t).samples =
        s.samples.map (OrderedMap.map (reexpress s.vartype t)) := by
      rw [changeVartype_of_ne ht, samples, samples, List.map_map, List.map_map]
      rfl
    rw [hsamples, List.getElem?_map, List.getElem?_map, h]

structure SameOutcome (a b : Record V α) : Prop where
  energy_eq : b.energy = a.energy
  occurrences_eq : b.occurrences = a.occurrences
  keys_eq : b.sample.keys = a.sample.keys

theorem sameOutcome_changeVartype (s : SampleSet V α) (t : Vartype) :
    List.Forall₂ SameOutcome s.records (s.changeVartype t).records := by
  by_cases ht : t = s.vartype
  · rw [ht, changeVartype_vartype]
    exact List.forall₂_same.2 fun r _ => ⟨rfl, rfl, rfl⟩
  · rw [changeVartype_of_ne ht, List.forall₂_map_right_iff, List.forall₂_same]
    exact fun r _ => ⟨rfl, rfl, OrderedMap.keys_map _ _⟩

theorem InDomain.sameBits_changeVartype (h : s.InDomain) (t : Vartype) :
    List.Forall₂ (fun a b : Record V α =>
      b.sample.values.map t.bit? = a.sample.values.map s.vartype.bit?)
      s.records (s.changeVartype t).records := by
  by_cases ht : t = s.vartype
  · rw [ht, changeVartype_vartype]
    exact List.forall₂_same.2 fun r _ => rfl
  · rw [changeVartype_of_ne ht, List.forall₂_map_right_iff, List.forall₂_same]
    intro r hr
    rw [OrderedMap.values_map, List.map_map]
    exact List.map_congr_left fun x hx => bit?_reexpress (h r hr x hx)

end Conversion

section Order

variable [Coefficient α]

structure Ascending (s : SampleSet V α) : Prop where
  isNumber : ∀ r ∈ s.records, IsNumber r.energy
  sorted : s.records.Pairwise fun a b => a.energy ≤ b.energy

theorem ascending_of_totalLe [Comparable α] (hnumber : ∀ r ∈ s.records, IsNumber r.energy)
    (hsorted : s.records.Pairwise fun a b => totalLe a.energy b.energy = true) : s.Ascending :=
  ⟨hnumber, hsorted.imp_of_mem fun ha hb =>
    Comparable.le_of_totalLe _ _ (hnumber _ ha) (hnumber _ hb)⟩

theorem ascending_ofRecords [TotallyOrdered α] [Comparable α] (t : Vartype)
    {rs : List (Record V α)} (h : ∀ r ∈ rs, IsNumber r.energy) : (ofRecords t rs).Ascending :=
  ascending_of_totalLe (fun r hr => h r (List.mem_mergeSort.1 hr)) <| List.pairwise_mergeSort
    (fun a b c => TotallyOrdered.totalLe_trans a.energy b.energy c.energy)
    (fun a b => TotallyOrdered.totalLe_total a.energy b.energy) rs

theorem Ascending.truncate (h : s.Ascending) (n : Nat) : (s.truncate n).Ascending :=
  ⟨fun r hr => h.isNumber r (List.mem_of_mem_take hr), h.sorted.sublist (List.take_sublist n _)⟩

theorem Ascending.changeVartype (h : s.Ascending) (t : Vartype) :
    (s.changeVartype t).Ascending := by
  by_cases ht : t = s.vartype
  · rwa [ht, changeVartype_vartype]
  · rw [changeVartype_of_ne ht]
    refine ⟨fun r' hr' => ?_, List.pairwise_map.2 h.sorted⟩
    obtain ⟨r, hr, rfl⟩ := List.mem_map.1 hr'
    exact h.isNumber r hr

/-- Sets of merged solutions or of given records, cut off and converted any number of times. The
energies that they start with are numbers. -/
inductive Reachable : SampleSet V α → Prop
  | ofSolutions {m : Model V α} {solutions : List (Solution α)} {s : SampleSet V α} :
      ofSolutions? m solutions = some s → (∀ r ∈ s.records, IsNumber r.energy) → Reachable s
  | ofRecords (t : Vartype) {rs : List (Record V α)} :
      (∀ r ∈ rs, IsNumber r.energy) → Reachable (ofRecords t rs)
  | truncate {s : SampleSet V α} (n : Nat) : Reachable s → Reachable (s.truncate n)
  | changeVartype {s : SampleSet V α} (t : Vartype) : Reachable s → Reachable (s.changeVartype t)

variable [Comparable α]

theorem Reachable.ascending [TotallyOrdered α] (h : s.Reachable) : s.Ascending := by
  induction h with
  | ofSolutions hs hnumber =>
    obtain ⟨seen, -, rfl⟩ := Option.map_eq_some_iff.1 hs
    exact ascending_ofRecords _ fun r hr => hnumber r (List.mem_mergeSort.2 hr)
  | ofRecords t hnumber => exact ascending_ofRecords t hnumber
  | truncate n _ ih => exact ih.truncate n
  | changeVartype t _ ih => exact ih.changeVartype t

theorem Ascending.first?_le (h : s.Ascending) {r : Record V α} (hr : s.first? = some r) :
    ∀ x ∈ s.records, r.energy ≤ x.energy := by
  obtain ⟨t, records⟩ := s
  obtain ⟨rest, rfl⟩ := List.head?_eq_some_iff.1 hr
  rintro x (_ | ⟨_, hx⟩)
  · exact (h.isNumber r (by simp)).le_refl
  · exact (List.pairwise_cons.1 h.sorted).1 x hx

theorem Ascending.lowest_eq (h : s.Ascending) :
    s.lowest = s.records.filter fun x => s.first?.any fun r => x.energy == r.energy := by
  cases hr : s.first? with
  | none =>
    have hnil : s.records = [] := List.head?_eq_none_iff.1 hr
    rw [lowest, hnil]
    rfl
  | some r =>
    obtain ⟨rest, hrest⟩ := List.head?_eq_some_iff.1 hr
    have hlowest : s.lowest = s.records.takeWhile fun x => x.energy == r.energy := by
      rw [lowest, hrest]
    rw [hlowest]
    refine takeWhile_eq_filter (h.sorted.imp_of_mem fun {a b} ha _ hab hb => ?_)
    -- what is between two equal energies is equal to them
    have hbr : b.energy ≤ r.energy := ((Comparable.beq_iff _ _).1 hb).1
    exact (Comparable.beq_iff _ _).2
      ⟨Comparable.le_trans _ _ _ hab hbr, h.first?_le hr a ha⟩

theorem Ascending.truncate_drops (h : s.Ascending) (n : Nat) :
    ∃ dropped, s.records = (s.truncate n).records ++ dropped ∧
      ∀ k ∈ (s.truncate n).records, ∀ d ∈ dropped, ¬d.energy < k.energy := by
  have hsplit : s.records = (s.truncate n).records ++ s.records.drop n :=
    (List.take_append_drop n s.records).symm
  have hsorted := h.sorted
  rw [hsplit, List.pairwise_append] at hsorted
  refine ⟨s.records.drop n, hsplit, fun k hk d hd hlt => ?_⟩
  exact ((Comparable.lt_iff _ _).1 hlt).2 (hsorted.2.2 k hk d hd)

/-- What a sample set tells of its energies, and what is left of it by each further step. -/
structure Lawful (s : SampleSet V α) : Prop where
  sorted : s.records.Pairwise fun a b => a.energy ≤ b.energy
  first?_eq_none_iff : s.first? = none ↔ s.records = []
  first?_isLeast : ∀ r, s.first? = some r →
    r ∈ s.records ∧ ∀ x ∈ s.records, r.energy ≤ x.energy
  lowest_eq : s.lowest = s.records.filter fun x => s.first?.any fun r => x.energy == r.energy
  len_truncate : ∀ n, (s.truncate n).len = min n s.len
  truncate_drops : ∀ n, ∃ dropped, s.records = (s.truncate n).records ++ dropped ∧
    ∀ k ∈ (s.truncate n).records, ∀ d ∈ dropped, ¬d.energy < k.energy
  vartype_changeVartype : ∀ t, (s.changeVartype t).vartype = t
  sameOutcome : ∀ t, List.Forall₂ SameOutcome s.records (s.changeVartype t).records
  sameBits : s.InDomain → ∀ t : Vartype, List.Forall₂ (fun a b : Record V α =>
    b.sample.values.map t.bit? = a.sample.values.map s.vartype.bit?)
      s.records (s.changeVartype t).records
  inDomain_changeVartype : s.InDomain → ∀ t, (s.changeVartype t).InDomain
  roundTrip : s.InDomain → ∀ t, (s.changeVartype t).changeVartype s.vartype = s
  samples_eq_iff : s.InDomain → ∀ (t : Vartype) (i j : Nat),
    (s.changeVartype t).samples[i]? = (s.changeVartype t).samples[j]? ↔
      s.samples[i]? = s.samples[j]?

theorem reachable_sets_lawful [TotallyOrdered α] (h : s.Reachable) : s.Lawful where
  sorted := h.ascending.sorted
  first?_eq_none_iff := List.head?_eq_none_iff
  first?_isLeast r hr := ⟨List.mem_of_mem_head? hr, h.ascending.first?_le hr⟩
  lowest_eq := h.ascending.lowest_eq
  len_truncate n := List.length_take
  truncate_drops := h.ascending.truncate_drops
  vartype_changeVartype := s.vartype_changeVartype
  sameOutcome := sameOutcome_changeVartype s
  sameBits hdomain := hdomain.sameBits_changeVartype
  inDomain_changeVartype hdomain := hdomain.changeVartype
  roundTrip hdomain := hdomain.changeVartype_changeVartype
  samples_eq_iff hdomain t i j := by
    refine ⟨fun hsame => ?_, samples_changeVartype_congr⟩
    rw [← hdomain.changeVartype_changeVartype t]
    exact samples_changeVartype_congr hsame

end Order

theorem lawful_signed_zeros :
    let sample (x y : Int) : Sample Nat := ⟨[(4, x), (9, y)], by simp⟩
    let rs : List (Record Nat Float) :=
      [⟨sample 1 (-1), -0, 2⟩, ⟨sample (-1) (-1), 0, 1⟩, ⟨sample 1 1, 5 / 2, 4⟩]
    let s := ((ofRecords .spin rs).truncate 3).changeVartype .binary
    s.Reachable ∧ s.Lawful ∧ s.InDomain ∧ s.lowest.length = 2 := by
  intro sample rs s
  have hnumber : ∀ r ∈ rs, IsNumber r.energy := by decide
  have hs : s.Reachable := .changeVartype .binary (.truncate 3 (.ofRecords .spin hnumber))
  have hsorted : sortByEnergy rs = rs := List.mergeSort_of_pairwise (by decide)
  have hrecords : s = (⟨.spin, rs⟩ : SampleSet Nat Float).changeVartype .binary := by
    simp only [s, ofRecords, hsorted]
    rfl
  refine ⟨hs, reachable_sets_lawful hs, ?_, ?_⟩
  · rw [hrecords]
    refine InDomain.changeVartype ?_ _
    unfold InDomain
    decide
  · rw [hrecords]
    decide

end BinaryQuadratic.SampleSet

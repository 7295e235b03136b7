import Mathlib.Data.UInt
import BinaryQuadratic.Proofs.Annealing.Progress
import BinaryQuadratic.Proofs.Model.Labels
import BinaryQuadratic.Proofs.SampleSet
import BinaryQuadratic.Proofs.SampleSet.Merging

/-! Solutions summed up by state, wherever they come from: each state gets one record, with the
energy of its first solution and the occurrences of all of them. Sorting is stable, so that equal
energies leave the states in the order of first sight, and no other order of the records will do. -/

namespace BinaryQuadratic

open Coefficient

section StableSort

variable {β : Type} {le : β → β → Bool} {R : β → β → Prop} {l : List β}

theorem pairwise_mergeSort_ties (htrans : ∀ a b c, le a b = true → le b c = true → le a c = true)
    (htotal : ∀ a b, (le a b || le b a) = true) (h : l.Pairwise R) :
    (l.mergeSort le).Pairwise fun a b => le a b = true ∧ (le b a = true → R a b) := by
  -- with its position at its side, each element knows which of two equals came first
  have hsorted := List.pairwise_mergeSort (List.zipIdxLE_trans htrans)
    (List.zipIdxLE_total htotal) l.zipIdx
  have hdistinct : (l.zipIdx.mergeSort (List.zipIdxLE le)).Pairwise fun p q => p.2 ≠ q.2 := by
    have hnodup : (l.zipIdx.map Prod.snd).Nodup := by
      rw [List.zipIdx_map_snd]
      exact List.nodup_range'
    exact List.pairwise_map.1 (((List.mergeSort_perm _ _).map _).nodup_iff.2 hnodup)
  rw [← List.mergeSort_zipIdx, List.pairwise_map]
  refine (hsorted.and hdistinct).imp_of_mem fun {p q} hp hq ⟨hle, hne⟩ => ?_
  rw [List.zipIdxLE] at hle
  split at hle
  · next hpq =>
    refine ⟨hpq, fun hqp => ?_⟩
    rw [if_pos hqp] at hle
    have hlt : p.2 < q.2 := lt_of_le_of_ne (of_decide_eq_true hle) hne
    obtain ⟨hi, hpi⟩ := List.getElem?_eq_some_iff.1
      (List.mem_zipIdx_iff_getElem?.1 (List.mem_mergeSort.1 hp))
    obtain ⟨hj, hqj⟩ := List.getElem?_eq_some_iff.1
      (List.mem_zipIdx_iff_getElem?.1 (List.mem_mergeSort.1 hq))
    rw [← hpi, ← hqj]
    exact List.pairwise_iff_getElem.1 h _ _ hi hj hlt
  · cases hle

theorem lt_iff_of_pairwise (hasymm : ∀ a b, R a b → ¬R b a) (h : l.Pairwise R) {i j : Nat}
    {a b : β} (ha : l[i]? = some a) (hb : l[j]? = some b) : i < j ↔ R a b := by
  obtain ⟨hi, rfl⟩ := List.getElem?_eq_some_iff.1 ha
  obtain ⟨hj, rfl⟩ := List.getElem?_eq_some_iff.1 hb
  have hplaces := List.pairwise_iff_getElem.1 h
  constructor
  · exact hplaces i j hi hj
  · intro hab
    obtain hlt | rfl | hgt := lt_trichotomy i j
    · exact hlt
    · exact absurd hab (hasymm _ _ hab)
    · exact absurd (hplaces j i hj hi hgt) (hasymm _ _ hab)

theorem eq_of_perm_of_pairwise {l' : List β} (hasymm : ∀ a b, R a b → ¬R b a) (h : l.Pairwise R)
    (h' : l'.Pairwise R) (hperm : l'.Perm l) : l' = l :=
  hperm.eq_of_pairwise (fun a b _ _ hab hba => absurd hba (hasymm a b hab)) h' h

end StableSort

theorem toNat_sum {l : List UInt64} (hfit : (l.map UInt64.toNat).sum < 2 ^ 64) :
    l.sum.toNat = (l.map UInt64.toNat).sum := by
  induction l with
  | nil => rfl
  | cons n l ih =>
    rw [List.map_cons, List.sum_cons] at hfit ⊢
    rw [List.sum_cons, UInt64.toNat_add, ih (by omega)]
    exact Nat.mod_eq_of_lt hfit

namespace SampleSet

variable {V α : Type} {m : Model V α} {l : List (Solution α)} {s : PackedState}

def endingIn (l : List (Solution α)) (s : PackedState) : List (Solution α) :=
  l.filter fun r => r.state = s

def firstSeen (l : List (Solution α)) (s : PackedState) : Nat := (l.map Solution.state).idxOf s

section Tally

variable [Coefficient α] {seen seen' : OrderedMap PackedState (α × UInt64)}

theorem tallyAll?_cons_eq_some_iff {r : Solution α} :
    tallyAll? m (r :: l) seen = some seen' ↔
      ∃ e, r.energyIn? m = some e ∧ tallyAll? m l (tally seen r e) = some seen' := by
  rw [tallyAll?]
  cases r.energyIn? m <;> simp

theorem keys_tallyAll? (h : tallyAll? m l seen = some seen') :
    seen'.keys = (seen.keys ++ l.map Solution.state).eraseDups := by
  induction l generalizing seen with
  | nil =>
    obtain rfl := Option.some.inj h
    rw [List.map_nil, List.append_nil, eraseDups_of_nodup (l := seen.keys) seen.nodup]
  | cons r l ih =>
    obtain ⟨e, -, hrest⟩ := tallyAll?_cons_eq_some_iff.1 h
    have hkeys : (tally seen r e).keys = (seen.keys ++ [r.state]).eraseDups := by
      rw [tally, OrderedMap.keys_adjust, eraseDups_concat,
        eraseDups_of_nodup (l := seen.keys) seen.nodup]
    rw [ih hrest, hkeys, eraseDups_eraseDups_append, List.append_assoc]
    rfl

theorem find?_tallyAll? (h : tallyAll? m l seen = some seen') (s : PackedState) :
    seen'.find? s =
      match seen.find? s with
      | some p => some (p.1, p.2 + ((endingIn l s).map Solution.occurrences).sum)
      | none => (endingIn l s).head?.bind fun r => (r.energyIn? m).map fun e =>
          (e, ((endingIn l s).map Solution.occurrences).sum) := by
  induction l generalizing seen with
  | nil =>
    obtain rfl := Option.some.inj h
    cases seen.find? s <;> simp [endingIn]
  | cons r l ih =>
    obtain ⟨e, he, hrest⟩ := tallyAll?_cons_eq_some_iff.1 h
    rw [ih hrest, tally, OrderedMap.find?_adjust]
    by_cases hs : s = r.state
    · -- only a state that is not there yet takes the energy of `r`
      subst hs
      cases seen.find? r.state with
      | none => simp [endingIn, he]
      | some p => simp [endingIn, add_assoc]
    · have hskip : endingIn (r :: l) s = endingIn l s := by simp [endingIn, Ne.symm hs]
      rw [if_neg hs, hskip]

theorem sum_tallyAll? (h : tallyAll? m l seen = some seen') :
    (seen'.values.map Prod.snd).sum =
      (seen.values.map Prod.snd).sum + (l.map Solution.occurrences).sum := by
  induction l generalizing seen with
  | nil =>
    obtain rfl := Option.some.inj h
    simp
  | cons r l ih =>
    obtain ⟨e, -, hrest⟩ := tallyAll?_cons_eq_some_iff.1 h
    have hstep : ((tally seen r e).values.map Prod.snd).sum =
        (seen.values.map Prod.snd).sum + r.occurrences :=
      OrderedMap.sum_values_adjust Prod.snd seen rfl rfl
    rw [ih hrest, hstep, List.map_cons, List.sum_cons, add_assoc]

end Tally

section Aggregation

variable [Coefficient α]

structure Summarizes (m : Model V α) (l : List (Solution α)) (s : PackedState)
    (r : Record V α) : Prop where
  keys_eq : r.sample.keys = m.labels
  values_eq : r.sample.values = s.values m.vartype
  occurrences_eq :
    r.occurrences.toNat = ((endingIn l s).map fun x => x.occurrences.toNat).sum
  energy_eq : ∃ first, (endingIn l s).head? = some first ∧
    first.energy.or (m.energyOfState? s) = some r.energy

/-- The order of records: ascending energies, and equal ones by the first sight of the state. -/
def Precedes (l : List (Solution α)) (a b : PackedState × Record V α) : Prop :=
  (totalLe a.2.energy b.2.energy = true ∧ totalLe b.2.energy a.2.energy = false) ∨
    totalLe a.2.energy b.2.energy = true ∧ totalLe b.2.energy a.2.energy = true ∧
      firstSeen l a.1 < firstSeen l b.1

theorem Precedes.asymm (a b : PackedState × Record V α) (h : Precedes l a b) :
    ¬Precedes l b a := by
  rintro (⟨hba, hab⟩ | ⟨hba, hab, hseen⟩) <;> rcases h with ⟨hab', hba'⟩ | ⟨hab', hba', hseen'⟩
  · simp [hab] at hab'
  · simp [hab] at hab'
  · simp [hba] at hba'
  · omega

def recordOf (m : Model V α) (e : PackedState × α × UInt64) : Record V α :=
  ⟨sampleOf m e.1, e.2.1, e.2.2⟩

def rowsOf (m : Model V α) (seen : OrderedMap PackedState (α × UInt64)) :
    List (PackedState × Record V α) :=
  (seen.entries.mergeSort fun a b => totalLe a.2.1 b.2.1).map fun e => (e.1, recordOf m e)

variable {seen : OrderedMap PackedState (α × UInt64)}

theorem map_snd_rowsOf (m : Model V α) (seen : OrderedMap PackedState (α × UInt64)) :
    (rowsOf m seen).map Prod.snd = sortByEnergy (seen.entries.map (recordOf m)) := by
  rw [rowsOf, List.map_map, sortByEnergy, ← List.map_mergeSort (f := recordOf m)
    (r := fun a b => totalLe a.2.1 b.2.1) fun a _ b _ => rfl]
  rfl

theorem perm_fst_rowsOf (m : Model V α) (seen : OrderedMap PackedState (α × UInt64)) :
    ((rowsOf m seen).map Prod.fst).Perm seen.keys := by
  rw [rowsOf, List.map_map]
  exact (List.mergeSort_perm _ _).map _

theorem pairwise_rowsOf [TotallyOrdered α] (h : tallyAll? m l ∅ = some seen) :
    (rowsOf m seen).Pairwise (Precedes l) := by
  have hkeys : seen.keys = (l.map Solution.state).eraseDups := keys_tallyAll? h
  have hseen : seen.keys.Pairwise fun s t => firstSeen l s < firstSeen l t :=
    hkeys ▸ pairwise_idxOf_eraseDups _
  rw [rowsOf, List.pairwise_map]
  have hsorted := pairwise_mergeSort_ties
    (fun a b c => TotallyOrdered.totalLe_trans a.2.1 b.2.1 c.2.1)
    (fun a b => TotallyOrdered.totalLe_total a.2.1 b.2.1) (List.pairwise_map.1 hseen)
  refine hsorted.imp fun {a b} ⟨hle, htie⟩ => ?_
  cases hge : totalLe b.2.1 a.2.1 with
  | false => exact .inl ⟨hle, hge⟩
  | true => exact .inr ⟨hle, hge, htie hge⟩

omit [Coefficient α] in
theorem numReads_eq_sum (set : SampleSet V α) :
    set.numReads = (set.records.map Record.occurrences).sum := by
  rw [numReads, List.sum_eq_foldl, List.foldl_map]

variable (hlen : ∀ r ∈ l, r.state.len = m.numVariables)
  (hfit : (l.map fun r => r.occurrences.toNat).sum < 2 ^ 64)

include hlen hfit

theorem summarizes_of_mem (h : tallyAll? m l ∅ = some seen) {e : PackedState × α × UInt64}
    (he : e ∈ seen.entries) : Summarizes m l e.1 (recordOf m e) := by
  have hfind : (endingIn l e.1).head?.bind (fun r => (r.energyIn? m).map fun x =>
      (x, ((endingIn l e.1).map Solution.occurrences).sum)) = some e.2 :=
    (find?_tallyAll? h e.1).symm.trans (OrderedMap.find?_eq_some_iff.2 he)
  obtain ⟨first, hfirst, hfind⟩ := Option.bind_eq_some_iff.1 hfind
  obtain ⟨x, hx, hfind⟩ := Option.map_eq_some_iff.1 hfind
  obtain ⟨hmem, hstate⟩ := List.mem_filter.1 (List.mem_of_mem_head? hfirst)
  have hstate : first.state = e.1 := of_decide_eq_true hstate
  have hstatelen : e.1.len = m.numVariables := hstate ▸ hlen first hmem
  have hcount : ((endingIn l e.1).map Solution.occurrences).sum = e.2.2 := congrArg Prod.snd hfind
  have henergy : x = e.2.1 := congrArg Prod.fst hfind
  have hsub : ((endingIn l e.1).map fun r => r.occurrences.toNat).sum ≤
      (l.map fun r => r.occurrences.toNat).sum :=
    (List.filter_sublist.map _).sum_le_sum fun _ _ => Nat.zero_le _
  refine ⟨keys_sampleOf hstatelen, values_sampleOf hstatelen, ?_, first, hfirst, ?_⟩
  · show e.2.2.toNat = _
    rw [← hcount, toNat_sum, List.map_map]
    · rfl
    · rw [List.map_map]
      exact hsub.trans_lt hfit
  · rw [← hstate]
    refine Eq.trans ?_ (hx.trans (congrArg some henergy))
    cases hpreset : first.energy <;> simp [Solution.energyIn?, hpreset]

variable (hstate : ∀ r ∈ l, r.state.Reachable)

include hstate

omit hfit in
theorem nodup_samples_of_tallyAll? (h : tallyAll? m l ∅ = some seen) :
    (seen.keys.map (sampleOf m)).Nodup := by
  have hcanonical : ∀ s ∈ seen.keys, s.Canonical ∧ s.len = m.numVariables := by
    intro s hs
    rw [keys_tallyAll? h, List.mem_eraseDups] at hs
    obtain ⟨r, hr, rfl⟩ := List.mem_map.1 hs
    exact ⟨(hstate r hr).canonical, hlen r hr⟩
  refine List.Nodup.map_on (fun s hs t ht hst => ?_) seen.nodup
  obtain ⟨hs, hslen⟩ := hcanonical s hs
  obtain ⟨ht, htlen⟩ := hcanonical t ht
  exact sampleOf_injective hs ht hslen htlen hst

end Aggregation

/-- A sample set as the sum of solutions, with the state of each record at its side. -/
structure Aggregates [Coefficient α] (m : Model V α) (l : List (Solution α)) (set : SampleSet V α)
    (rows : List (PackedState × Record V α)) : Prop where
  vartype_eq : set.vartype = m.vartype
  records_eq : set.records = rows.map Prod.snd
  nodup_states : (rows.map Prod.fst).Nodup
  mem_states : ∀ s, s ∈ rows.map Prod.fst ↔ ∃ r ∈ l, r.state = s
  summarizes : ∀ row ∈ rows, Summarizes m l row.1 row.2
  lt_iff_precedes : ∀ (i j : Nat) a b, rows[i]? = some a → rows[j]? = some b →
    (i < j ↔ Precedes l a b)
  unique : ∀ rows' : List (PackedState × Record V α),
    rows'.Perm rows → rows'.Pairwise (Precedes l) → rows' = rows
  numReads_eq : set.numReads.toNat = (l.map fun r => r.occurrences.toNat).sum
  nodup_samples : (set.records.map Record.sample).Nodup

/-- Each state that occurs has one record, with the variables of the model and the values of the
state, the occurrences of all its solutions and the energy of the first of them. Energies ascend,
and equal ones are in the order of first sight. -/
theorem ofSolutions?_aggregates [DecidableEq V] [Coefficient α] [TotallyOrdered α]
    (hm : m.Reachable) (hl : ∀ r ∈ l, r.state.Reachable ∧ r.state.len = m.numVariables)
    (hfit : (l.map fun r => r.occurrences.toNat).sum < 2 ^ 64) :
    ∃ set rows, ofSolutions? m l = some set ∧ Aggregates m l set rows := by
  have hlen : ∀ r ∈ l, r.state.len = m.numVariables := fun r hr => (hl r hr).2
  have hsome : ∀ r ∈ l, (r.energyIn? m).isSome := by
    intro r hr
    rw [Solution.energyIn?]
    split
    · rfl
    · obtain ⟨e, he⟩ := hm.wellFormed.exists_energyOfState? (hlen r hr)
      rw [he]
      rfl
  obtain ⟨seen, hseen⟩ := tallyAll?_isSome hsome ∅
  have hkeys : seen.keys = (l.map Solution.state).eraseDups := keys_tallyAll? hseen
  have hperm := perm_fst_rowsOf m seen
  have hordered := pairwise_rowsOf (m := m) hseen
  have hrecords := map_snd_rowsOf m seen
  have hsorted : ((rowsOf m seen).map Prod.snd).Perm (seen.entries.map (recordOf m)) :=
    hrecords ▸ List.mergeSort_perm _ _
  refine ⟨_, rowsOf m seen, congrArg (Option.map _) hseen,
    { vartype_eq := rfl
      records_eq := hrecords.symm
      nodup_states := hperm.nodup_iff.2 seen.nodup
      mem_states := fun s => ?_
      summarizes := fun row hrow => ?_
      lt_iff_precedes := fun i j a b => lt_iff_of_pairwise Precedes.asymm hordered
      unique := fun rows' hrows h => eq_of_perm_of_pairwise Precedes.asymm hordered h hrows
      numReads_eq := ?_
      nodup_samples := ?_ }⟩
  · rw [hperm.mem_iff, hkeys, List.mem_eraseDups, List.mem_map]
  · obtain ⟨e, he, rfl⟩ := List.mem_map.1 hrow
    exact summarizes_of_mem hlen hfit hseen (List.mem_mergeSort.1 he)
  · have hvalues : (seen.entries.map (recordOf m)).map Record.occurrences =
        seen.values.map Prod.snd := by
      rw [OrderedMap.values, List.map_map, List.map_map]
      rfl
    have hsum : (seen.values.map Prod.snd).sum = (l.map Solution.occurrences).sum :=
      (sum_tallyAll? hseen).trans (zero_add _)
    have hreads := (hsorted.map Record.occurrences).sum_eq
    rw [hvalues, hsum, hrecords] at hreads
    rw [numReads_eq_sum]
    refine (congrArg UInt64.toNat hreads).trans ?_
    rw [toNat_sum, List.map_map]
    · rfl
    · rwa [List.map_map]
  · have hsamples : (seen.entries.map (recordOf m)).map Record.sample =
        seen.keys.map (sampleOf m) := by
      rw [OrderedMap.keys, List.map_map, List.map_map]
      rfl
    have hnodup := (hsorted.map Record.sample).nodup_iff
    rw [hsamples, hrecords] at hnodup
    exact hnodup.2 (nodup_samples_of_tallyAll? hlen (fun r hr => (hl r hr).1) hseen)

theorem ofSolutions?_eleven_reads :
    let m : Model Nat Float := ((Model.empty .spin).addVariable 7 0.5).couple 7 3 (-1)
    let l : List (Solution Float) :=
      [⟨.ofBits [true, false], none, 2⟩, ⟨.ofBits [false, true], some (0 / 0), 1⟩,
        ⟨.ofBits [true, true], some 0, 1⟩, ⟨.ofBits [true, false], some (-9), 3⟩,
        ⟨.ofBits [false, false], some (-0), 4⟩]
    m.Reachable ∧ (∀ r ∈ l, r.state.Reachable ∧ r.state.len = m.numVariables) ∧
      (l.map fun r => r.occurrences.toNat).sum < 2 ^ 64 ∧
      ∃ set rows, ofSolutions? m l = some set ∧ Aggregates m l set rows ∧
        set.numReads.toNat = 11 := by
  intro m l
  have hm : m.Reachable :=
    .addInteraction (.addVariable 7 0.5 (.empty .spin)) (u := 7) (v := 3) (b := -1) rfl
  have hl : ∀ r ∈ l, r.state.Reachable ∧ r.state.len = m.numVariables := by
    intro r hr
    have hbits : ∃ bits, r.state = .ofBits bits ∧ bits.length = 2 := by
      simp only [l, List.mem_cons, List.not_mem_nil, or_false] at hr
      obtain rfl | rfl | rfl | rfl | rfl := hr <;> exact ⟨_, rfl, rfl⟩
    obtain ⟨bits, hstate, hlen⟩ := hbits
    have hnum : m.numVariables = 2 := by decide
    rw [hstate, hnum]
    exact ⟨.ofBits bits, (PackedState.len_ofBits bits).trans hlen⟩
  have hfit : (l.map fun r => r.occurrences.toNat).sum < 2 ^ 64 := by decide
  obtain ⟨set, rows, hset, h⟩ := ofSolutions?_aggregates hm hl hfit
  exact ⟨hm, hl, hfit, set, rows, hset, h, h.numReads_eq⟩

end SampleSet

end BinaryQuadratic

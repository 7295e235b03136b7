import Mathlib.Data.List.Forall2
import BinaryQuadratic.Proofs.SampleSet.Aggregation

/-! Sample sets of a list of solutions and of a longer one. What comes later adds occurrences to the
records that are there and may bring new ones, but it moves no two of them past each other. -/

namespace BinaryQuadratic

open Coefficient

section StableSort

variable {β γ : Type} {le : β → β → Bool} {l l' : List β}
  (htrans : ∀ a b c, le a b = true → le b c = true → le a c = true)
  (htotal : ∀ a b, (le a b || le b a) = true)

include htrans htotal

theorem mergeSort_cons_eq (a : β) (l : List β) : (a :: l).mergeSort le =
    (l.mergeSort le).filter (fun b => !le a b) ++ a :: (l.mergeSort le).filter (le a) := by
  obtain ⟨before, after, hsort, hrest, hbefore⟩ := List.mergeSort_cons htrans htotal a l
  have hsorted := List.pairwise_mergeSort htrans htotal (a :: l)
  rw [hsort] at hsorted
  have hafter : ∀ b ∈ after, le a b = true :=
    (List.pairwise_cons.1 (List.pairwise_append.1 hsorted).2.1).1
  have hnone : after.filter (fun b => !le a b) = [] :=
    List.filter_eq_nil_iff.2 fun b hb => by simp [hafter b hb]
  have hnone' : before.filter (le a) = [] :=
    List.filter_eq_nil_iff.2 fun b hb => by simpa using hbefore b hb
  rw [hsort, hrest, List.filter_append, List.filter_append, hnone, hnone', List.append_nil,
    List.nil_append, List.filter_eq_self.2 hbefore, List.filter_eq_self.2 hafter]

/-- A stable sort brings the elements of a sublist into the order that they have without the
others. -/
theorem mergeSort_sublist_mergeSort (h : l.Sublist l') :
    (l.mergeSort le).Sublist (l'.mergeSort le) := by
  induction h with
  | slnil => exact List.Sublist.refl _
  | cons a _ ih =>
    obtain ⟨before, after, hsort, hrest, -⟩ := List.mergeSort_cons htrans htotal a _
    rw [hsort]
    rw [hrest] at ih
    exact ih.trans ((List.sublist_cons_self a after).append_left before)
  | cons_cons a _ ih =>
    rw [mergeSort_cons_eq htrans htotal, mergeSort_cons_eq htrans htotal]
    exact (ih.filter _).append ((ih.filter _).cons_cons a)

omit htrans htotal in
theorem forall₂_mergeSort {le' : γ → γ → Bool} {R : β → γ → Prop} {l : List β} {l' : List γ}
    (h : List.Forall₂ R l l') (hle : ∀ a b a' b', R a a' → R b b' → le a b = le' a' b') :
    List.Forall₂ R (l.mergeSort le) (l'.mergeSort le') := by
  obtain ⟨hlen, hR⟩ := List.forall₂_iff_zip.1 h
  have hfst : (l.zip l').map Prod.fst = l := List.map_fst_zip hlen.le
  have hsnd : (l.zip l').map Prod.snd = l' := List.map_snd_zip hlen.ge
  -- pairs are sorted like their first parts, and like their second ones
  have hsort : l.mergeSort le = ((l.zip l').mergeSort fun p q => le p.1 q.1).map Prod.fst := by
    rw [List.map_mergeSort (s := le) fun _ _ _ _ => rfl, hfst]
  have hsort' : l'.mergeSort le' = ((l.zip l').mergeSort fun p q => le p.1 q.1).map Prod.snd := by
    rw [List.map_mergeSort (s := le') fun p hp q hq => hle _ _ _ _ (hR hp) (hR hq), hsnd]
  rw [hsort, hsort', List.forall₂_map_left_iff, List.forall₂_map_right_iff, List.forall₂_same]
  exact fun p hp => hR (List.mem_mergeSort.1 hp)

end StableSort

namespace SampleSet

variable {V α : Type}

structure ContinuedBy (r r' : Record V α) : Prop where
  sample_eq : r'.sample = r.sample
  energy_eq : r'.energy = r.energy
  occurrences_le : r.occurrences ≤ r'.occurrences

structure ExtendedBy (fewer more : SampleSet V α) : Prop where
  vartype_eq : more.vartype = fewer.vartype
  records : ∃ kept, kept.Sublist more.records ∧ List.Forall₂ ContinuedBy fewer.records kept

variable [Coefficient α] {m : Model V α} {l l' : List (Solution α)}
  {seen seen' : OrderedMap PackedState (α × UInt64)}

theorem Summarizes.continuedBy {s : PackedState} {r r' : Record V α} (h : Summarizes m l s r)
    (h' : Summarizes m (l ++ l') s r') : ContinuedBy r r' := by
  have hending : endingIn (l ++ l') s = endingIn l s ++ endingIn l' s := List.filter_append ..
  refine ⟨?_, ?_, ?_⟩
  · exact OrderedMap.eq_of_keys_of_values (h'.keys_eq.trans h.keys_eq.symm)
      (h'.values_eq.trans h.values_eq.symm)
  · obtain ⟨first, hfirst, henergy⟩ := h.energy_eq
    obtain ⟨first', hfirst', henergy'⟩ := h'.energy_eq
    rw [hending, List.head?_append, hfirst, Option.some_or] at hfirst'
    obtain rfl := Option.some.inj hfirst'
    exact Option.some.inj (henergy'.symm.trans henergy)
  · rw [UInt64.le_iff_toNat_le, h.occurrences_eq, h'.occurrences_eq, hending, List.map_append,
      List.sum_append]
    exact Nat.le_add_right _ _

theorem keys_tallyAll?_append (h : tallyAll? m l ∅ = some seen)
    (h' : tallyAll? m (l ++ l') ∅ = some seen') : seen.keys <+: seen'.keys := by
  have hkeys : seen.keys = (l.map Solution.state).eraseDups := keys_tallyAll? h
  have hkeys' : seen'.keys = ((l ++ l').map Solution.state).eraseDups := keys_tallyAll? h'
  rw [hkeys, hkeys', List.map_append, List.eraseDups_append]
  exact List.prefix_append _ _

variable (hlen : ∀ r ∈ l ++ l', r.state.len = m.numVariables)
  (hfit : ((l ++ l').map fun r => r.occurrences.toNat).sum < 2 ^ 64)

include hlen hfit

theorem continuedBy_of_getElem? (h : tallyAll? m l ∅ = some seen)
    (h' : tallyAll? m (l ++ l') ∅ = some seen') {i : Nat} {e e' : PackedState × α × UInt64}
    (he : seen.entries[i]? = some e) (he' : seen'.entries[i]? = some e') :
    ContinuedBy (recordOf m e) (recordOf m e') := by
  have hlen' : ∀ r ∈ l, r.state.len = m.numVariables := fun r hr =>
    hlen r (List.mem_append_left _ hr)
  have hfit' : (l.map fun r => r.occurrences.toNat).sum < 2 ^ 64 := by
    rw [List.map_append, List.sum_append] at hfit
    omega
  have hstate : e'.1 = e.1 := by
    obtain ⟨later, hlater⟩ := keys_tallyAll?_append h h'
    have hkey : seen.keys[i]? = some e.1 := by rw [OrderedMap.keys, List.getElem?_map, he]; rfl
    have hkey' : seen'.keys[i]? = some e'.1 := by rw [OrderedMap.keys, List.getElem?_map, he']; rfl
    obtain ⟨hlt, -⟩ := List.getElem?_eq_some_iff.1 hkey
    rw [← hlater, List.getElem?_append_left hlt, hkey] at hkey'
    exact (Option.some.inj hkey').symm
  have hsum := summarizes_of_mem hlen' hfit' h (List.mem_of_getElem? he)
  have hsum' := summarizes_of_mem hlen hfit h' (List.mem_of_getElem? he')
  rw [hstate] at hsum'
  exact hsum.continuedBy hsum'

theorem extendedBy_of_append [TotallyOrdered α] {fewer more : SampleSet V α}
    (h : ofSolutions? m l = some fewer) (h' : ofSolutions? m (l ++ l') = some more) :
    ExtendedBy fewer more := by
  obtain ⟨seen, hseen, rfl⟩ := Option.map_eq_some_iff.1 h
  obtain ⟨seen', hseen', rfl⟩ := Option.map_eq_some_iff.1 h'
  have hsize : seen.entries.length ≤ seen'.entries.length := by
    simpa [OrderedMap.size] using (keys_tallyAll?_append hseen hseen').length_le
  have hkept : List.Forall₂ ContinuedBy (seen.entries.map (recordOf m))
      ((seen'.entries.take seen.entries.length).map (recordOf m)) := by
    rw [List.forall₂_map_left_iff, List.forall₂_map_right_iff, List.forall₂_iff_get]
    refine ⟨by simp [hsize], fun i hi hi' => ?_⟩
    refine continuedBy_of_getElem? hlen hfit hseen hseen' (List.getElem?_eq_getElem hi) ?_
    simp
  refine ⟨rfl, sortByEnergy ((seen'.entries.take seen.entries.length).map (recordOf m)), ?_, ?_⟩
  · exact mergeSort_sublist_mergeSort
      (fun a b c => TotallyOrdered.totalLe_trans a.energy b.energy c.energy)
      (fun a b => TotallyOrdered.totalLe_total a.energy b.energy)
      ((List.take_sublist _ _).map _)
  · exact forall₂_mergeSort hkept fun a b a' b' ha hb => by rw [ha.energy_eq, hb.energy_eq]

end SampleSet

end BinaryQuadratic

import BinaryQuadratic.Proofs.Model.Conversion
import BinaryQuadratic.SampleSet.Basic

/-! Sample sets of a model, of the same model over another domain, and of a model with the same
variables whose energies are in the same order. -/

namespace BinaryQuadratic

def Solution.mapEnergy {α : Type} (f : α → α) (s : Solution α) : Solution α :=
  { s with energy := s.energy.map f }

namespace SampleSet

open Coefficient

variable {V α : Type}

def mapEnergies (f : α → α) (s : SampleSet V α) : SampleSet V α :=
  { s with records := s.records.map fun r => { r with energy := f r.energy } }

@[simp] theorem reexpress_value (old new : Vartype) (b : Bool) :
    reexpress old new (old.value b) = new.value b := by
  rw [reexpress, Vartype.bit?_value, Option.getD_some]

theorem entries_sampleOf (m : Model V α) (s : PackedState) :
    (sampleOf m s).entries = m.labels.zip (s.values m.vartype) := by
  rw [sampleOf, OrderedMap.zipWith, Model.labels, OrderedMap.keys, List.zip, List.zipWith_map_left]

section Energies

variable [Coefficient α]

theorem tallyAll?_congr {m m' : Model V α} {solutions : List (Solution α)}
    (h : ∀ s ∈ solutions, s.energyIn? m' = s.energyIn? m)
    (seen : OrderedMap PackedState (α × UInt64)) :
    tallyAll? m' solutions seen = tallyAll? m solutions seen := by
  induction solutions generalizing seen with
  | nil => rfl
  | cons s rest ih =>
    rw [tallyAll?, tallyAll?, h s (by simp)]
    cases s.energyIn? m with
    | none => rfl
    | some e => exact ih (fun s hs => h s (List.mem_cons_of_mem _ hs)) (tally seen s e)

theorem tallyAll?_isSome {m : Model V α} {solutions : List (Solution α)}
    (h : ∀ s ∈ solutions, (s.energyIn? m).isSome) (seen : OrderedMap PackedState (α × UInt64)) :
    ∃ seen', tallyAll? m solutions seen = some seen' := by
  induction solutions generalizing seen with
  | nil => exact ⟨seen, rfl⟩
  | cons s rest ih =>
    obtain ⟨e, he⟩ := Option.isSome_iff_exists.1 (h s (by simp))
    rw [tallyAll?, he]
    exact ih (fun s hs => h s (List.mem_cons_of_mem _ hs)) (tally seen s e)

theorem ofSolutions?_isSome {m : Model V α} {solutions : List (Solution α)}
    (h : ∀ s ∈ solutions, (s.energyIn? m).isSome) :
    ∃ set, ofSolutions? m solutions = some set := by
  obtain ⟨seen, hseen⟩ := tallyAll?_isSome h ∅
  exact ⟨_, congrArg (Option.map _) hseen⟩

theorem vartype_ofSolutions? {m : Model V α} {solutions : List (Solution α)} {set : SampleSet V α}
    (h : ofSolutions? m solutions = some set) : set.vartype = m.vartype := by
  obtain ⟨seen, -, rfl⟩ := Option.map_eq_some_iff.1 h
  rfl

end Energies

section Conversion

variable [Exact α] {m : Model V α}

theorem sampleOf_toVartype (h : m.WellFormed) (t : Vartype) (s : PackedState) :
    sampleOf (m.toVartype t) s = (sampleOf m s).map (reexpress m.vartype t) := by
  apply OrderedMap.ext
  have hvalues : s.values t = (s.values m.vartype).map (reexpress m.vartype t) := by
    simp [PackedState.values]
  rw [entries_sampleOf, h.labels_toVartype, Model.vartype_toVartype, hvalues, List.zip_map_right,
    ← entries_sampleOf]
  rfl

theorem ofSolutions?_toVartype (h : m.WellFormed) (t : Vartype) {solutions : List (Solution α)}
    (hs : ∀ s ∈ solutions, s.energyIn? (m.toVartype t) = s.energyIn? m) :
    ofSolutions? (m.toVartype t) solutions =
      (ofSolutions? m solutions).map fun set => set.changeVartype t := by
  by_cases ht : t = m.vartype
  · subst ht
    rw [Model.toVartype_vartype]
    cases hset : ofSolutions? m solutions with
    | none => rfl
    | some set => simp [changeVartype, vartype_ofSolutions? hset]
  · rw [ofSolutions?, ofSolutions?, tallyAll?_congr hs, Option.map_map]
    cases tallyAll? m solutions ∅ with
    | none => rfl
    | some seen =>
      simp only [Option.map_some, Function.comp_apply, ofRecords, changeVartype, ht, if_false,
        Model.vartype_toVartype, sortByEnergy, sampleOf_toVartype h]
      -- the rewritten records are compared by the same energies, so that they sort alike
      rw [List.map_mergeSort (s := fun (a b : Record V α) => totalLe a.energy b.energy)
        fun a _ b _ => rfl, List.map_map]
      rfl

end Conversion

section Ordered

variable [Coefficient α] {m m' : Model V α} {f : α → α} {solutions : List (Solution α)}

omit [Coefficient α] in
theorem sampleOf_congr (ht : m'.vartype = m.vartype) (hlabels : m'.labels = m.labels)
    (s : PackedState) : sampleOf m' s = sampleOf m s := by
  apply OrderedMap.ext
  rw [entries_sampleOf, entries_sampleOf, ht, hlabels]

theorem tallyAll?_mapEnergy
    (h : ∀ s ∈ solutions, (s.mapEnergy f).energyIn? m' = (s.energyIn? m).map f)
    (seen : OrderedMap PackedState (α × UInt64)) :
    tallyAll? m' (solutions.map (Solution.mapEnergy f)) (seen.map (Prod.map f id)) =
      (tallyAll? m solutions seen).map (OrderedMap.map (Prod.map f id)) := by
  induction solutions generalizing seen with
  | nil => rfl
  | cons s rest ih =>
    rw [List.map_cons, tallyAll?, tallyAll?, h s (by simp)]
    cases s.energyIn? m with
    | none => rfl
    | some e =>
      have htally : tally (seen.map (Prod.map f id)) (s.mapEnergy f) (f e) =
          (tally seen s e).map (Prod.map f id) :=
        (seen.map_adjust s.state (f := Prod.map f id) (b := (e, 0)) (c := (f e, 0))
          (h := fun p => (p.1, p.2 + s.occurrences)) rfl fun _ => rfl).symm
      have hrest := ih (fun s hs => h s (List.mem_cons_of_mem _ hs)) (tally seen s e)
      rw [← htally] at hrest
      exact hrest

theorem ofSolutions?_mapEnergy (ht : m'.vartype = m.vartype) (hlabels : m'.labels = m.labels)
    (hf : ∀ a b, totalLe (f a) (f b) = totalLe a b)
    (h : ∀ s ∈ solutions, (s.mapEnergy f).energyIn? m' = (s.energyIn? m).map f) :
    ofSolutions? m' (solutions.map (Solution.mapEnergy f)) =
      (ofSolutions? m solutions).map (mapEnergies f) := by
  have htally := tallyAll?_mapEnergy h ∅
  rw [ofSolutions?, ofSolutions?, Option.map_map]
  refine (congrArg (Option.map _) htally).trans ?_
  cases tallyAll? m solutions ∅ with
  | none => rfl
  | some seen =>
    -- no two energies change their order, so that the records are sorted alike
    simp only [Option.map_some, Function.comp_apply, ofRecords, mapEnergies, sortByEnergy, ht,
      sampleOf_congr ht hlabels, OrderedMap.map, List.map_map]
    rw [List.map_mergeSort (s := fun (a b : Record V α) => totalLe a.energy b.energy)
      fun a _ b _ => (hf a.energy b.energy).symm, List.map_map]
    rfl

end Ordered

end SampleSet

end BinaryQuadratic

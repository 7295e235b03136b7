import Mathlib.Algebra.BigOperators.Group.Finset.Piecewise
import BinaryQuadratic.OrderedMap

/-! What an insertion-ordered map answers after each operation, and sums over its entries as sums
over any set that contains its keys. -/

namespace BinaryQuadratic.OrderedMap

open Finset

variable {κ β γ : Type}

theorem keys_zipWith {δ : Type} (f : β → γ → δ) (m : OrderedMap κ β) {l : List γ}
    (h : l.length = m.size) : (m.zipWith f l).keys = m.keys := by
  have key : ∀ (es : List (κ × β)) (l : List γ), l.length = es.length →
      (es.zipWith (fun e c => (e.1, f e.2 c)) l).map Prod.fst = es.map Prod.fst := by
    intro es
    induction es with
    | nil => simp
    | cons e es ih =>
      rintro (_ | ⟨c, l⟩) hl
      · simp at hl
      · simpa using ih l (by simpa using hl)
  exact key m.entries l h

theorem values_zipWith {δ : Type} (f : β → γ → δ) (m : OrderedMap κ β) (l : List γ) :
    (m.zipWith f l).values = m.values.zipWith f l := by
  simp [zipWith, values, List.map_zipWith, List.zipWith_map_left]

theorem entries_eq_zip (m : OrderedMap κ β) : m.entries = m.keys.zip m.values := by
  rw [keys, values, List.zip_map']
  exact (List.map_id _).symm

theorem eq_of_keys_of_values {m m' : OrderedMap κ β} (hk : m.keys = m'.keys)
    (hv : m.values = m'.values) : m = m' := by
  apply OrderedMap.ext
  rw [entries_eq_zip, entries_eq_zip, hk, hv]

theorem map_map_of_leftInverse {f : β → γ} {g : γ → β} (h : Function.LeftInverse g f)
    (m : OrderedMap κ β) : (m.map f).map g = m := by
  refine eq_of_keys_of_values (by simp) ?_
  simp [h.comp_eq_id]

section Lookup

variable [DecidableEq κ]

@[simp] theorem find?_empty (k : κ) : (∅ : OrderedMap κ β).find? k = none := rfl

theorem find?_eq_some_iff {m : OrderedMap κ β} {k : κ} {b : β} :
    m.find? k = some b ↔ (k, b) ∈ m.entries := by
  constructor
  · intro h
    obtain ⟨⟨k', b'⟩, he, rfl⟩ := Option.map_eq_some_iff.1 h
    have hk : k' = k := by simpa using List.find?_some he
    exact hk ▸ List.mem_of_find?_eq_some he
  · intro h
    have hsome : (m.entries.find? fun e => e.1 = k).isSome :=
      List.find?_isSome.2 ⟨(k, b), h, by simp⟩
    obtain ⟨e, he⟩ := Option.isSome_iff_exists.1 hsome
    have hk : e.1 = k := by simpa using List.find?_some he
    have : e = (k, b) :=
      List.inj_on_of_nodup_map m.nodup (List.mem_of_find?_eq_some he) h hk
    rw [find?, he, this]
    rfl

theorem find?_eq_none_iff {m : OrderedMap κ β} {k : κ} : m.find? k = none ↔ k ∉ m.keys := by
  simp only [find?, Option.map_eq_none_iff, List.find?_eq_none, keys, List.mem_map, not_exists]
  grind

theorem find?_eq_of_perm {x y : OrderedMap κ β} {p : κ → Bool}
    (h : (x.entries.filter fun e => p e.1).Perm (y.entries.filter fun e => p e.1)) {k : κ}
    (hk : p k = true) : x.find? k = y.find? k := by
  refine Option.ext fun b => ?_
  have hmem := h.mem_iff (a := (k, b))
  rw [List.mem_filter, List.mem_filter, and_iff_left hk, and_iff_left hk] at hmem
  rw [find?_eq_some_iff, find?_eq_some_iff, hmem]

theorem getElem?_ofList_entries [Hashable κ] (m : OrderedMap κ β) (k : κ) :
    (Std.HashMap.ofList m.entries)[k]? = m.find? k := by
  cases h : m.find? k with
  | some b =>
    refine Std.HashMap.getElem?_ofList_of_mem BEq.rfl ?_ (find?_eq_some_iff.1 h)
    exact (List.pairwise_map.1 m.nodup).imp fun hne => beq_false_of_ne hne
  | none =>
    refine Std.HashMap.getElem?_ofList_of_contains_eq_false ?_
    rw [List.contains_eq_mem, decide_eq_false_iff_not]
    exact find?_eq_none_iff.1 h

theorem find?_map (f : β → γ) (m : OrderedMap κ β) (k : κ) :
    (m.map f).find? k = (m.find? k).map f := by
  simp only [find?, map, List.find?_map, Option.map_map]
  rfl

theorem find?_adjust (m : OrderedMap κ β) (k : κ) (b : β) (f : β → β) (j : κ) :
    (m.adjust k b f).find? j = if j = k then some (f ((m.find? k).getD b)) else m.find? j := by
  have key : ∀ es : List (κ × β),
      ((adjustEntries k b f es).find? fun e => e.1 = j).map Prod.snd =
        if j = k then some (f (((es.find? fun e => e.1 = k).map Prod.snd).getD b))
        else (es.find? fun e => e.1 = j).map Prod.snd := by
    intro es
    induction es with
    | nil => grind [adjustEntries]
    | cons e es ih => grind [adjustEntries]
  exact key m.entries

theorem adjust_adjust (m : OrderedMap κ β) (k : κ) (b c : β) (f g : β → β) :
    (m.adjust k b f).adjust k c g = m.adjust k b fun x => g (f x) := by
  have key : ∀ es : List (κ × β), adjustEntries k c g (adjustEntries k b f es) =
      adjustEntries k b (fun x => g (f x)) es := by
    intro es
    induction es with
    | nil => simp [adjustEntries]
    | cons e es ih =>
      by_cases h : e.1 = k
      · simp [adjustEntries, h]
      · simp [adjustEntries, h, ih]
  exact OrderedMap.ext (key m.entries)

theorem entries_adjust_of_notMem {m : OrderedMap κ β} {k : κ} (h : k ∉ m.keys) (b : β) (f : β → β) :
    (m.adjust k b f).entries = m.entries ++ [(k, f b)] := by
  have key : ∀ es : List (κ × β), k ∉ es.map Prod.fst →
      adjustEntries k b f es = es ++ [(k, f b)] := by
    intro es
    induction es with
    | nil => exact fun _ => rfl
    | cons e es ih =>
      intro hk
      obtain ⟨hne, hrest⟩ : k ≠ e.1 ∧ k ∉ es.map Prod.fst := by simpa using hk
      rw [adjustEntries, if_neg (Ne.symm hne), ih hrest, List.cons_append]
  exact key m.entries h

theorem filter_entries_adjust (m : OrderedMap κ β) {p : κ → Bool} {k : κ} (hp : p k = false) (b : β)
    (f : β → β) : ((m.adjust k b f).entries.filter fun e => p e.1) =
      m.entries.filter fun e => p e.1 := by
  have key : ∀ es : List (κ × β), ((adjustEntries k b f es).filter fun e => p e.1) =
      es.filter fun e => p e.1 := by
    intro es
    induction es with
    | nil => simp [adjustEntries, hp]
    | cons e es ih =>
      rw [adjustEntries]
      split
      · next hk => simp [hk, hp]
      · simp only [List.filter_cons, ih]
  exact key m.entries

omit [DecidableEq κ] in
theorem entries_foldl {step : OrderedMap κ β → κ × β → OrderedMap κ β}
    (hstep : ∀ m e, e.1 ∉ m.keys → (step m e).entries = m.entries ++ [e]) {m : OrderedMap κ β}
    {l : List (κ × β)} (h : ((m.entries ++ l).map Prod.fst).Nodup) :
    (l.foldl step m).entries = m.entries ++ l := by
  induction l generalizing m with
  | nil => exact (List.append_nil _).symm
  | cons e l ih =>
    have hnew : e.1 ∉ m.keys := fun hmem => by
      rw [List.map_append] at h
      exact (List.nodup_append.1 h).2.2 e.1 hmem e.1 (by simp) rfl
    have hentries := hstep m e hnew
    rw [List.foldl_cons, ih (by simpa [hentries] using h), hentries, List.append_assoc]
    rfl

theorem entries_ofList {l : List (κ × β)} (h : (l.map Prod.fst).Nodup) :
    (ofList l).entries = l :=
  entries_foldl (fun _ e hnew => entries_adjust_of_notMem hnew e.2 _) h

theorem map_adjust (m : OrderedMap κ β) (k : κ) {f : β → γ} {b : β} {c : γ} {g : β → β} {h : γ → γ}
    (hb : f b = c) (hg : ∀ x, f (g x) = h (f x)) :
    (m.adjust k b g).map f = (m.map f).adjust k c h := by
  have key : ∀ es : List (κ × β), (adjustEntries k b g es).map (fun e => (e.1, f e.2)) =
      adjustEntries k c h (es.map fun e => (e.1, f e.2)) := by
    intro es
    induction es with
    | nil => simp [adjustEntries, hb, hg]
    | cons e es ih =>
      rw [List.map_cons, adjustEntries, adjustEntries]
      split
      · rw [List.map_cons, hg]
      · rw [List.map_cons, ih]
  exact OrderedMap.ext (key m.entries)

theorem indexOf?_eq_some_iff {m : OrderedMap κ β} {k : κ} {i : Nat} :
    m.indexOf? k = some i ↔ m.keys[i]? = some k := by
  have hn := m.nodup
  rw [indexOf?, keys, List.findIdx?_eq_some_iff_getElem, List.getElem?_eq_some_iff]
  constructor
  · rintro ⟨hi, hk, -⟩
    exact ⟨by simpa using hi, by simpa using hk⟩
  · rintro ⟨hi, hk⟩
    have hi' : i < m.entries.length := by simpa using hi
    refine ⟨hi', by simpa using hk, fun j hj => ?_⟩
    have hne := List.pairwise_iff_getElem.1 hn j i (by simp; omega) hi hj
    simp only [List.getElem_map] at hne hk
    simpa [hk] using hne

theorem indexOf?_eq_none_iff {m : OrderedMap κ β} {k : κ} :
    m.indexOf? k = none ↔ k ∉ m.keys := by
  simp only [indexOf?, List.findIdx?_eq_none_iff, keys, List.mem_map, not_exists]
  grind

theorem values_adjust (m : OrderedMap κ β) (k : κ) (b : β) (f : β → β) :
    (m.adjust k b f).values =
      match m.indexOf? k with
      | some i => m.values.modify i f
      | none => m.values ++ [f b] := by
  have key : ∀ es : List (κ × β), (adjustEntries k b f es).map Prod.snd =
      match es.findIdx? fun e => e.1 = k with
      | some i => (es.map Prod.snd).modify i f
      | none => es.map Prod.snd ++ [f b] := by
    intro es
    induction es with
    | nil => simp [adjustEntries]
    | cons e es ih =>
      by_cases h : e.1 = k
      · simp [adjustEntries, h, List.findIdx?_cons]
      · simp only [adjustEntries, h, if_false, List.map_cons, ih, List.findIdx?_cons]
        cases es.findIdx? fun e => e.1 = k <;> simp
  exact key m.entries

theorem map_find?_keys (m : OrderedMap κ β) : m.keys.map m.find? = m.values.map some := by
  rw [keys, values, List.map_map, List.map_map]
  exact List.map_congr_left fun _ he => find?_eq_some_iff.2 he

theorem values_eq_map_iff {m : OrderedMap κ β} {f : κ → β} :
    m.values = m.keys.map f ↔ ∀ k ∈ m.keys, m.find? k = some (f k) := by
  rw [← (List.map_injective_iff.2 (Option.some_injective β)).eq_iff, ← map_find?_keys,
    List.map_map, List.map_inj_left]
  rfl

theorem sum_values_adjust {M : Type} [AddCommMonoid M] (g : β → M) (m : OrderedMap κ β) {k : κ}
    {b : β} {f : β → β} {d : M} (hb : g b = 0)
    (hd : g (f ((m.find? k).getD b)) = g ((m.find? k).getD b) + d) :
    ((m.adjust k b f).values.map g).sum = (m.values.map g).sum + d := by
  have key : ∀ es : List (κ × β),
      g (f (((es.find? fun e => e.1 = k).map Prod.snd).getD b)) =
        g (((es.find? fun e => e.1 = k).map Prod.snd).getD b) + d →
      (((adjustEntries k b f es).map Prod.snd).map g).sum =
        ((es.map Prod.snd).map g).sum + d := by
    intro es
    induction es with
    | nil => simp [adjustEntries, hb]
    | cons e es ih =>
      intro hd
      by_cases h : e.1 = k
      · have hde : g (f e.2) = g e.2 + d := by simpa [h] using hd
        simp [adjustEntries, h, hde, add_right_comm]
      · have hes := ih (by simpa [h] using hd)
        simp only [adjustEntries, h, if_false, List.map_cons, List.sum_cons, hes, add_assoc]
  exact key m.entries hd

theorem sum_entries {M : Type} [AddCommMonoid M] (m : OrderedMap κ β) (f : κ → β → M)
    {s : Finset κ} (hs : ∀ k ∈ m.keys, k ∈ s) :
    (m.entries.map fun e => f e.1 e.2).sum = ∑ k ∈ s, (m.find? k).elim 0 (f k) := by
  have key : ∀ es : List (κ × β), (es.map Prod.fst).Nodup → (∀ k ∈ es.map Prod.fst, k ∈ s) →
      (es.map fun e => f e.1 e.2).sum =
        ∑ k ∈ s, ((es.find? fun e => e.1 = k).map Prod.snd).elim 0 (f k) := by
    intro es
    induction es with
    | nil => simp
    | cons e es ih =>
      intro hn hmem
      rw [List.map_cons, List.nodup_cons] at hn
      have he : e.1 ∈ s := hmem e.1 (by simp)
      have hnew : (es.find? fun e' => e'.1 = e.1) = none := by
        rw [List.find?_eq_none]
        intro a ha h
        exact hn.1 (List.mem_map.2 ⟨a, ha, by simpa using h⟩)
      have hsplit : ∀ k ∈ s,
          (((e :: es).find? fun e => e.1 = k).map Prod.snd).elim 0 (f k) =
            (if k = e.1 then f e.1 e.2 else 0) +
              ((es.find? fun e => e.1 = k).map Prod.snd).elim 0 (f k) := by
        intro k _
        by_cases hk : k = e.1
        · subst hk
          simp [hnew]
        · simp [hk, Ne.symm hk]
      rw [Finset.sum_congr rfl hsplit, Finset.sum_add_distrib, Finset.sum_ite_eq' s, if_pos he,
        List.map_cons, List.sum_cons, ih hn.2 fun k hk => hmem k (List.mem_cons_of_mem _ hk)]
  exact key m.entries m.nodup hs

end Lookup

end BinaryQuadratic.OrderedMap

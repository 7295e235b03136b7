import BinaryQuadratic.Proofs.Coefficient.Binary64
import BinaryQuadratic.Proofs.Problem.Tour.Decoding

/-! The best tour among the records of a sample set. The tours are met one after the other, and each
is compared with the one kept so far. A length that is not a number is beside no other: it takes the
place of whatever was kept, and whatever follows takes its place. So the tours since the last such
length are compared, and the first of the shortest of these is the result. -/

namespace BinaryQuadratic.Tour

open Coefficient

variable {α : Type} [Coefficient α] {d : Distances α} {s : SampleSet Cell α}

section Lengths

variable {t : List Nat}

theorem mem_of_mem_legs {leg : Nat × Nat} (h : leg ∈ legs t) : leg.1 ∈ t ∧ leg.2 ∈ t := by
  obtain ⟨hstart, hstop⟩ := List.of_mem_zip h
  refine ⟨hstart, ?_⟩
  rcases List.mem_append.1 hstop with hstop | hstop
  · exact List.mem_of_mem_drop hstop
  · exact List.mem_of_mem_take hstop

omit [Coefficient α] in
theorem exists_distance? (hd : ∀ row ∈ d, row.length = d.length) {i k : Nat} (hi : i < d.length)
    (hk : k < d.length) : ∃ x, distance? d i k = some x := by
  have hk' : k < d[i].length := (hd _ (List.getElem_mem hi)).symm ▸ hk
  refine ⟨d[i][k], ?_⟩
  rw [distance?, List.getElem?_eq_getElem hi]
  exact List.getElem?_eq_getElem hk'

theorem exists_mapM {β γ : Type} {f : β → Option γ} {l : List β}
    (h : ∀ b ∈ l, ∃ c, f b = some c) : ∃ r, l.mapM f = some r := by
  induction l with
  | nil => exact ⟨[], rfl⟩
  | cons b l ih =>
    obtain ⟨c, hc⟩ := h b List.mem_cons_self
    obtain ⟨r, hr⟩ := ih fun b' hb' => h b' (List.mem_cons_of_mem _ hb')
    exact ⟨c :: r, by rw [List.mapM_cons, hc, hr]; rfl⟩

theorem exists_tourDistance? (hd : ∀ row ∈ d, row.length = d.length)
    (ht : t.Perm (List.range d.length)) : ∃ x, tourDistance? d t = some x := by
  obtain ⟨-, -, hlt⟩ := perm_range_iff.1 ht
  obtain ⟨xs, hxs⟩ : ∃ xs, (legs t).mapM (fun leg => distance? d leg.1 leg.2) = some xs :=
    exists_mapM fun leg hleg => by
      obtain ⟨hstart, hstop⟩ := mem_of_mem_legs hleg
      exact exists_distance? hd (hlt _ hstart) (hlt _ hstop)
  exact ⟨sum xs, by rw [tourDistance?, hxs, Option.map_some]⟩

end Lengths

section Measuring

def toursOf (s : SampleSet Cell α) (n : Nat) : List (List Nat) :=
  s.records.filterMap fun r => decode? r.sample.assignment n

def measured (s : SampleSet Cell α) (d : Distances α) : List (List Nat × α) :=
  (toursOf s d.length).filterMap fun t => (tourDistance? d t).map fun x => (t, x)

omit [Coefficient α] in
theorem mem_toursOf {n : Nat} {t : List Nat} :
    t ∈ toursOf s n ↔ ∃ r ∈ s.records, decode? r.sample.assignment n = some t :=
  List.mem_filterMap

theorem mem_measured {e : List Nat × α} :
    e ∈ measured s d ↔ e.1 ∈ toursOf s d.length ∧ tourDistance? d e.1 = some e.2 := by
  obtain ⟨t, x⟩ := e
  simp only [measured, List.mem_filterMap, Option.map_eq_some_iff, Prod.mk.injEq]
  constructor
  · rintro ⟨t', ht', x', hx', rfl, rfl⟩
    exact ⟨ht', hx'⟩
  · rintro ⟨ht, hx⟩
    exact ⟨t, ht, x, hx, rfl, rfl⟩

theorem bestFrom?_eq {ts : List (List Nat)} (best : Option (List Nat × α))
    (h : ∀ t ∈ ts, ∃ x, tourDistance? d t = some x) : bestFrom? d ts best =
      some ((ts.filterMap fun t => (tourDistance? d t).map fun x => (t, x)).foldl shorter best) := by
  induction ts generalizing best with
  | nil => rfl
  | cons t ts ih =>
    obtain ⟨x, hx⟩ := h t List.mem_cons_self
    rw [bestFrom?, hx, List.filterMap_cons, hx]
    exact ih _ fun t' ht' => h t' (List.mem_cons_of_mem _ ht')

variable (hd : ∀ row ∈ d, row.length = d.length)

include hd

theorem exists_length_of_mem {t : List Nat} (ht : t ∈ toursOf s d.length) :
    ∃ x, tourDistance? d t = some x := by
  obtain ⟨r, -, hr⟩ := mem_toursOf.1 ht
  exact exists_tourDistance? hd (decode?_eq_some_iff_encodes.1 hr).perm

theorem measured_eq_nil_iff :
    measured s d = [] ↔ ∀ r ∈ s.records, decode? r.sample.assignment d.length = none := by
  rw [← List.filterMap_eq_nil_iff]
  change _ ↔ toursOf s d.length = []
  constructor
  · intro h
    refine List.eq_nil_iff_forall_not_mem.2 fun t ht => ?_
    obtain ⟨x, hx⟩ := exists_length_of_mem hd ht
    exact List.eq_nil_iff_forall_not_mem.1 h (t, x) (mem_measured.2 ⟨ht, hx⟩)
  · intro h
    rw [measured, h, List.filterMap_nil]

theorem best?_eq : best? s d = some ((measured s d).foldl shorter none) :=
  bestFrom?_eq none fun _ ht => exists_length_of_mem hd ht

end Measuring

section Keeping

/-- The first of the shortest tours: those before it are longer, and none after it is shorter. -/
def FirstShortest (l : List (List Nat × α)) (b : List Nat × α) : Prop :=
  ∃ before after, l = before ++ b :: after ∧ (∀ e ∈ before, b.2 < e.2) ∧ ∀ e ∈ after, b.2 ≤ e.2

/-- What is kept of tours of which the `recent` ones have come since the last length that was not a
number. -/
structure Kept (stale recent : List (List Nat × α)) (best : Option (List Nat × α)) : Prop where
  not_number : ∀ e ∈ stale.getLast?, ¬IsNumber e.2
  number : ∀ e ∈ recent, IsNumber e.2
  of_nil : recent = [] → best = stale.getLast?
  of_ne_nil : recent ≠ [] → ∃ b, best = some b ∧ FirstShortest recent b

variable {l : List (List Nat × α)} {b e : List Nat × α}

theorem FirstShortest.mem (h : FirstShortest l b) : b ∈ l := by
  obtain ⟨before, after, rfl, -, -⟩ := h
  simp

theorem firstShortest_singleton (e : List Nat × α) : FirstShortest [e] e :=
  ⟨[], [], rfl, by simp, by simp⟩

theorem FirstShortest.concat_of_le (h : FirstShortest l b) (hle : b.2 ≤ e.2) :
    FirstShortest (l ++ [e]) b := by
  obtain ⟨before, after, rfl, hbefore, hafter⟩ := h
  refine ⟨before, after ++ [e], by simp, hbefore, fun x hx => ?_⟩
  rcases List.mem_append.1 hx with hx | hx
  · exact hafter x hx
  · exact (List.mem_singleton.1 hx) ▸ hle

theorem Kept.mem {stale recent : List (List Nat × α)} {best : Option (List Nat × α)}
    (h : Kept stale recent best) (hb : best = some b) : b ∈ stale ++ recent := by
  by_cases hnil : recent = []
  · exact List.mem_append_left _ (List.mem_of_getLast? (h.of_nil hnil ▸ hb))
  · obtain ⟨b', hb', hfirst⟩ := h.of_ne_nil hnil
    obtain rfl : b = b' := Option.some.inj (hb.symm.trans hb')
    exact List.mem_append_right _ hfirst.mem

theorem Kept.eq_none_iff {stale recent : List (List Nat × α)} {best : Option (List Nat × α)}
    (h : Kept stale recent best) : best = none ↔ stale ++ recent = [] := by
  by_cases hnil : recent = []
  · rw [h.of_nil hnil, hnil, List.append_nil, List.getLast?_eq_none_iff]
  · obtain ⟨b, hb, -⟩ := h.of_ne_nil hnil
    simp [hb, hnil]

theorem Kept.eq_nil_of_forall_isNumber {stale recent : List (List Nat × α)}
    {best : Option (List Nat × α)} (h : Kept stale recent best)
    (hall : ∀ e ∈ stale ++ recent, IsNumber e.2) : stale = [] := by
  by_contra hne
  exact h.not_number _ (List.getLast?_eq_getLast_of_ne_nil hne)
    (hall _ (List.mem_append_left _ (List.getLast_mem hne)))

variable [NumbersCompared α]

theorem FirstShortest.le (h : FirstShortest l b) (hb : IsNumber b.2) (he : e ∈ l) : b.2 ≤ e.2 := by
  obtain ⟨before, after, rfl, hbefore, hafter⟩ := h
  rcases List.mem_append.1 he with he | he
  · exact ((Comparable.lt_iff _ _).1 (hbefore e he)).1
  · rcases List.mem_cons.1 he with rfl | he
    · exact hb.le_refl
    · exact hafter e he

theorem FirstShortest.concat_of_lt (h : FirstShortest l b) (hb : IsNumber b.2) (hlt : e.2 < b.2) :
    FirstShortest (l ++ [e]) e :=
  ⟨l, [], rfl, fun _ hx => Comparable.lt_of_lt_of_le hlt (h.le hb hx), by simp⟩

theorem shorter_of_not_isNumber (best : Option (List Nat × α)) (he : ¬IsNumber e.2) :
    shorter best e = some e := by
  cases best with
  | none => rfl
  | some b => exact if_neg fun hle => he (NumbersCompared.isNumber_of_le _ _ hle).2

theorem shorter_not_isNumber {best : Option (List Nat × α)} (hb : ∀ b ∈ best, ¬IsNumber b.2)
    (e : List Nat × α) : shorter best e = some e := by
  cases best with
  | none => rfl
  | some b => exact if_neg fun hle => hb b rfl (NumbersCompared.isNumber_of_le _ _ hle).1

theorem Kept.concat {stale recent : List (List Nat × α)} {best : Option (List Nat × α)}
    (h : Kept stale recent best) (he : IsNumber e.2) :
    Kept stale (recent ++ [e]) (shorter best e) := by
  refine ⟨h.not_number, ?_, by simp, fun _ => ?_⟩
  · intro x hx
    rcases List.mem_append.1 hx with hx | hx
    · exact h.number x hx
    · exact (List.mem_singleton.1 hx) ▸ he
  by_cases hnil : recent = []
  · subst hnil
    rw [shorter_not_isNumber (h.of_nil rfl ▸ h.not_number)]
    exact ⟨e, rfl, firstShortest_singleton e⟩
  · obtain ⟨b, rfl, hb⟩ := h.of_ne_nil hnil
    have hnumber := h.number b hb.mem
    by_cases hle : b.2 ≤ e.2
    · exact ⟨b, if_pos hle, hb.concat_of_le hle⟩
    · have hlt : e.2 < b.2 := (Comparable.lt_iff _ _).2
        ⟨(Comparable.le_total _ _ hnumber he).resolve_left hle, hle⟩
      exact ⟨e, if_neg hle, hb.concat_of_lt hnumber hlt⟩

theorem exists_kept (l : List (List Nat × α)) :
    ∃ stale recent, l = stale ++ recent ∧ Kept stale recent (l.foldl shorter none) := by
  induction l using List.reverseRecOn with
  | nil => exact ⟨[], [], rfl, ⟨by simp, by simp, fun _ => rfl, fun h => absurd rfl h⟩⟩
  | append_singleton l e ih =>
    obtain ⟨stale, recent, hl, hkept⟩ := ih
    rw [List.foldl_append, List.foldl_cons, List.foldl_nil]
    by_cases he : IsNumber e.2
    · exact ⟨stale, recent ++ [e], by rw [hl, List.append_assoc], hkept.concat he⟩
    · -- the tours so far do not count any more
      refine ⟨l ++ [e], [], by simp, ⟨?_, by simp, fun _ => ?_, fun h => absurd rfl h⟩⟩
      · simpa using he
      · rw [shorter_of_not_isNumber _ he, List.getLast?_concat]

end Keeping

section Best

def recordOf (n : Nat) (t : List Nat) : Record Cell Float :=
  ⟨.ofList ((cells n).map fun c => (c, Vartype.binary.value (t[c.slot]? = some c.city))), 0, 1⟩

/-- The records without a tour are passed over, and there is no best tour only if all of them are.
A best tour comes from a record with its own length. It is the last one if the length of that is not
a number, else the first of the shortest since the last such length. So it is the first of the
shortest of all if all lengths are numbers. -/
theorem best?_isFirstShortest [NumbersCompared α] (s : SampleSet Cell α)
    (hd : ∀ row ∈ d, row.length = d.length) :
    ∃ best, best? s d = some best ∧
      (best = none ↔ ∀ r ∈ s.records, decode? r.sample.assignment d.length = none) ∧
      (∀ b, best = some b → (∃ r ∈ s.records, decode? r.sample.assignment d.length = some b.1) ∧
        tourDistance? d b.1 = some b.2) ∧
      (∃ stale recent, measured s d = stale ++ recent ∧ Kept stale recent best) ∧
      ((∀ e ∈ measured s d, IsNumber e.2) → ∀ b, best = some b →
        IsNumber b.2 ∧ FirstShortest (measured s d) b ∧ ∀ e ∈ measured s d, b.2 ≤ e.2) := by
  obtain ⟨stale, recent, hl, hkept⟩ := exists_kept (measured s d)
  refine ⟨_, best?_eq hd, ?_, fun b hb => ?_, ⟨stale, recent, hl, hkept⟩, fun hnumber b hb => ?_⟩
  · rw [hkept.eq_none_iff, ← measured_eq_nil_iff hd, hl]
  · obtain ⟨htour, hlength⟩ := mem_measured.1 (hl ▸ hkept.mem hb)
    exact ⟨mem_toursOf.1 htour, hlength⟩
  · obtain rfl := hkept.eq_nil_of_forall_isNumber (hl ▸ hnumber)
    rw [List.nil_append] at hl
    have hmem : b ∈ recent := hkept.mem hb
    obtain ⟨b', hb', hfirst⟩ := hkept.of_ne_nil (List.ne_nil_of_mem hmem)
    obtain rfl : b = b' := Option.some.inj (hb.symm.trans hb')
    rw [hl]
    exact ⟨hkept.number b hmem, hfirst, fun e he => hfirst.le (hkept.number b hmem) he⟩

theorem best?_isFirstShortest_one_way :
    let d : Distances Float := [[0, 1 / 0, 1], [2, 0, 3], [5, 1, 0]]
    let s : SampleSet Cell Float :=
      ⟨.binary, [recordOf 3 [0, 1, 2], recordOf 3 [0, 1], recordOf 3 [2, 1, 0], recordOf 3 [1, 0, 2]]⟩
    (∀ row ∈ d, row.length = d.length) ∧ (∀ e ∈ measured s d, IsNumber e.2) ∧
      best? s d = some (some ([2, 1, 0], 4)) ∧
      FirstShortest (measured s d) ([2, 1, 0], 4) := by
  intro d s
  have hd : ∀ row ∈ d, row.length = d.length := by decide
  have hnumber : ∀ e ∈ measured s d, IsNumber e.2 := by decide +kernel
  have hbest : best? s d = some (some ([2, 1, 0], 4)) := by decide +kernel
  obtain ⟨best, hs, -, -, -, hshortest⟩ := best?_isFirstShortest s hd
  obtain rfl : some ([2, 1, 0], 4) = best := Option.some.inj (hbest.symm.trans hs)
  exact ⟨hd, hnumber, hbest, (hshortest hnumber _ rfl).2.1⟩

/-- The first record is of a tour with a length, but the later one takes its place. -/
theorem best?_not_a_number :
    let d : Distances Float := [[0, 1, 0 / 0], [2, 0, 1], [1, 2, 0]]
    let s : SampleSet Cell Float := ⟨.binary, [recordOf 3 [0, 1, 2], recordOf 3 [0, 2, 1]]⟩
    (∀ row ∈ d, row.length = d.length) ∧ tourDistance? d [0, 1, 2] = some 3 ∧ IsNumber (3 : Float) ∧
      ∃ r ∈ s.records, decode? r.sample.assignment 3 = some [0, 1, 2] ∧
      ∃ x, best? s d = some (some ([0, 2, 1], x)) ∧ ¬IsNumber x ∧ ¬x ≤ 3 := by
  refine ⟨by decide, by decide +kernel, by decide +kernel, _, List.mem_cons_self,
    by decide +kernel, 0 / 0, ?_, by decide +kernel, by decide +kernel⟩
  decide +kernel

end Best

end BinaryQuadratic.Tour

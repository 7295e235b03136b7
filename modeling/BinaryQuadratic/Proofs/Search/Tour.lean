import Mathlib.Data.List.Rotate
import BinaryQuadratic.Proofs.Problem.Tour.GroundStates
import BinaryQuadratic.Proofs.Search.Orders

/-! The search for the shortest tour. It visits each order of the cities behind the first one, and
any other tour is such an order, entered at another city and as long. -/

namespace BinaryQuadratic

open Coefficient

namespace Tour

theorem legs_eq_zip_rotate {t : List Nat} (ht : t ≠ []) : legs t = t.zip (t.rotate 1) := by
  rw [legs, List.rotate_eq_drop_append_take (List.length_pos_of_ne_nil ht)]

theorem legs_rotate (t : List Nat) (k : Nat) : legs (t.rotate k) = (legs t).rotate k := by
  by_cases ht : t = []
  · simp [ht, legs]
  · have hrotate : (t.rotate k).rotate 1 = (t.rotate 1).rotate k := by
      rw [List.rotate_rotate, List.rotate_rotate, Nat.add_comm]
    rw [legs_eq_zip_rotate ht, legs_eq_zip_rotate (by simpa using ht), hrotate]
    exact (List.zipWith_rotate_distrib Prod.mk t (t.rotate 1) k (by simp)).symm

variable {α : Type} [Exact α] {d : Distances α} {t : List Nat}

theorem tourLength_eq_sum_legs (ht : t.length = d.length) :
    tourLength d t = ((legs t).map fun leg => distance d leg.1 leg.2).sum := by
  have hlen : (legs t).length = d.length := by
    simp [legs]
    omega
  rw [tourLength, ← hlen]
  refine (sum_map_eq_sum_range fun slot leg hleg => ?_).symm
  have hslot : slot < t.length := by
    have := (List.getElem?_eq_some_iff.1 hleg).1
    omega
  rw [getElem?_legs hslot, ht, ← hlen] at hleg
  rw [← Option.some.inj hleg]

theorem tourLength_rotate (ht : t.length = d.length) (k : Nat) :
    tourLength d (t.rotate k) = tourLength d t := by
  rw [tourLength_eq_sum_legs (by rwa [List.length_rotate]), tourLength_eq_sum_legs ht, legs_rotate]
  exact ((List.rotate_perm _ k).map _).sum_eq

end Tour

namespace Search

open Tour

variable {α : Type} [Exact α] {d : Distances α}

theorem exists_keepShorter? (hd : ∀ row ∈ d, row.length = d.length) {t : List Nat}
    (ht : t.Perm (List.range d.length)) {best : List Nat × α}
    (hbest : best.2 = tourLength d best.1) :
    ∃ b, keepShorter? d t best = some b ∧ (b.1 = t ∨ b.1 = best.1) ∧ b.2 = tourLength d b.1 ∧
      b.2 ≤ tourLength d t ∧ b.2 ≤ tourLength d best.1 := by
  refine ⟨if tourLength d t < best.2 then (t, tourLength d t) else best, ?_, ?_⟩
  · rw [keepShorter?, tourDistance?_eq hd ht, Option.map_some]
  · rw [← hbest]
    split
    · next hlt => exact ⟨.inl rfl, rfl, le_refl _, hlt.le⟩
    · next hlt => exact ⟨.inr rfl, hbest, not_lt.1 hlt, le_refl _⟩

theorem exists_foldlM_keepShorter (hd : ∀ row ∈ d, row.length = d.length) (ts : List (List Nat))
    (hts : ∀ t ∈ ts, t.Perm (List.range d.length)) (best : List Nat × α)
    (hbest : best.2 = tourLength d best.1) :
    ∃ b, ts.foldlM (fun b t => keepShorter? d t b) best = some b ∧ b.1 ∈ best.1 :: ts ∧
      b.2 = tourLength d b.1 ∧ ∀ t ∈ best.1 :: ts, b.2 ≤ tourLength d t := by
  induction ts generalizing best with
  | nil => exact ⟨best, rfl, by simp, hbest, by simp [hbest]⟩
  | cons t ts ih =>
    obtain ⟨next, hkeep, hmem, hlength, hle, hle'⟩ := exists_keepShorter? hd (hts t (by simp)) hbest
    obtain ⟨b, hb, hb1, hb2, hall⟩ := ih (fun t ht => hts t (by simp [ht])) next hlength
    have hbnext : b.2 ≤ next.2 := hlength ▸ hall next.1 (by simp)
    refine ⟨b, ?_, ?_, hb2, ?_⟩
    · rw [List.foldlM_cons, hkeep]
      exact hb
    · rcases List.mem_cons.1 hb1 with heq | hts'
      · rcases hmem with hmem | hmem <;> simp [heq, hmem]
      · simp [hts']
    · intro t' ht'
      rcases List.mem_cons.1 ht' with rfl | ht'
      · exact hbnext.trans hle'
      · rcases List.mem_cons.1 ht' with rfl | ht'
        · exact hbnext.trans hle
        · exact hall t' (by simp [ht'])

theorem range_eq_cons {n : Nat} (hn : n ≠ 0) : List.range n = 0 :: List.range' 1 (n - 1) := by
  obtain ⟨n, rfl⟩ := Nat.exists_eq_succ_of_ne_zero hn
  rw [List.range_eq_range', List.range'_succ]
  rfl

theorem exists_rotate_mem_tours {n : Nat} (hn : n ≠ 0) {t : List Nat}
    (ht : t.Perm (List.range n)) : ∃ k, t.rotate k ∈ tours 0 (List.range' 1 (n - 1)) := by
  have hzero : 0 ∈ t := ht.mem_iff.2 (List.mem_range.2 (Nat.pos_of_ne_zero hn))
  obtain ⟨a, b, rfl⟩ := List.append_of_mem hzero
  refine ⟨a.length, (mem_tours_iff List.nodup_range').2 ⟨b ++ a, ?_, ?_⟩⟩
  · rw [range_eq_cons hn] at ht
    exact List.Perm.cons_inv ((@List.perm_append_comm _ (0 :: b) a).trans ht)
  · rw [List.rotate_append_length_eq, List.cons_append]

theorem exists_shortest? (hd : ∀ row ∈ d, row.length = d.length) (hne : d ≠ []) :
    ∃ t x, shortest? d = some (t, x) ∧ t.head? = some 0 ∧ tourDistance? d t = some x ∧
      IsShortest d t := by
  have hn : d.length ≠ 0 := (List.length_pos_of_ne_nil hne).ne'
  set l := List.range' 1 (d.length - 1) with hl
  have hrange : List.range d.length = 0 :: l := range_eq_cons hn
  have hcounters : d.length - 2 = l.length - 1 := by
    rw [hl, List.length_range']
    omega
  have htours : ∀ t ∈ tours 0 l, t.Perm (List.range d.length) := by
    intro t ht
    obtain ⟨r, hr, rfl⟩ := (mem_tours_iff List.nodup_range').1 ht
    exact hrange ▸ hr.cons 0
  have hvisits := cons_visits_eq_tours 0 l
  obtain ⟨⟨t, x⟩, hfold, hmem, hx, hall⟩ := exists_foldlM_keepShorter hd
    (visits (0 :: l) (exchanges (l.length - 1)))
    (fun t ht => htours t (hvisits ▸ List.mem_cons_of_mem _ ht)) (0 :: l, tourLength d (0 :: l)) rfl
  obtain rfl : x = tourLength d t := hx
  rw [hvisits] at hmem hall
  refine ⟨t, _, ?_, ?_, tourDistance?_eq hd (htours t hmem), (isShortest_iff hd).2
    ⟨htours t hmem, fun t' ht' => ?_⟩⟩
  · simp only [shortest?, tourDistance?_eq hd (List.Perm.refl _)]
    rw [hrange, hcounters, visitOrders_zeros]
    exact hfold
  · obtain ⟨r, -, rfl⟩ := (mem_tours_iff List.nodup_range').1 hmem
    rfl
  · -- a tour that starts elsewhere is visited as its rotation
    obtain ⟨k, hk⟩ := exists_rotate_mem_tours hn ht'
    rw [← tourLength_rotate (ht'.length_eq.trans List.length_range) k]
    exact hall _ hk

/-- Whatever a visit does, a walk through the orders of a list behind a first element does it once
for each order other than the one at the start. -/
structure Enumerates {β : Type} (first : β) (l : List β) (visited : List (List β)) : Prop where
  nodup : ((first :: l) :: visited).Nodup
  length_eq : visited.length + 1 = l.length.factorial
  mem_iff : ∀ t, t ∈ (first :: l) :: visited ↔ ∃ r : List β, r.Perm l ∧ t = first :: r
  visitOrders_eq : ∀ {σ : Type} (visit : List β → σ → Option σ) (s : σ),
    visitOrders visit 1 (List.replicate (l.length - 1) 0) (first :: l) s =
      visited.foldlM (fun s t => visit t s) s

theorem exists_enumerates {β : Type} (first : β) {l : List β} (hl : l.Nodup) :
    ∃ visited, Enumerates first l visited := by
  have htours := cons_visits_eq_tours first l
  refine ⟨visits (first :: l) (exchanges (l.length - 1)), ?_, ?_, ?_, fun visit s =>
    visitOrders_zeros _ _ s⟩
  · exact htours ▸ nodup_tours hl
  · exact (congrArg List.length htours).trans length_tours
  · exact fun t => htours ▸ mem_tours_iff hl

/-- The search returns a shortest tour, from the first city on, of any matrix that it accepts, and
the walk under it visits all orders of any number of cities, each one once. -/
theorem shortestTour_isShortest :
    (∀ d : Distances α, validate d = .ok () → d.length ≤ maxEnumeratedCities →
      ∃ t x, shortestTour d = .ok (t, x) ∧ t.head? = some 0 ∧ tourDistance? d t = some x ∧
        IsShortest d t) ∧
    ∀ (β : Type) (first : β) (l : List β), l.Nodup → ∃ visited, Enumerates first l visited := by
  refine ⟨fun d hd hn => ?_, fun β first l hl => exists_enumerates first hl⟩
  obtain ⟨hne, hsquare, -⟩ := validate_eq_ok_iff.1 hd
  obtain ⟨t, x, hshortest, hhead, hdistance, ht⟩ := exists_shortest? hsquare hne
  refine ⟨t, x, ?_, hhead, hdistance, ht⟩
  rw [shortestTour, hd]
  simp only [Except.mapError, if_neg (not_lt.2 hn), hshortest]
  rfl

theorem shortestTour_four_cities :
    let d : Distances ℝ := [[0, 2, 9, 10], [1, 0, 6, 4], [15, 7, 0, 8], [6, 3, 12, 0]]
    validate d = .ok () ∧ d.length ≤ maxEnumeratedCities ∧
      (∃ t x, shortestTour d = .ok (t, x) ∧ t.head? = some 0 ∧ tourDistance? d t = some x ∧
        IsShortest d t) ∧
      ∃ visited, Enumerates 0 [1, 2, 3] visited ∧ visited.length = 5 := by
  intro d
  have hd : validate d = .ok () :=
    validate_eq_ok_iff.2 ⟨List.cons_ne_nil _ _, by simp [d], fun _ _ _ _ => rfl⟩
  have hn : d.length ≤ maxEnumeratedCities := by decide
  obtain ⟨hsearch, hwalk⟩ := shortestTour_isShortest (α := ℝ)
  obtain ⟨visited, hvisited⟩ := hwalk Nat 0 [1, 2, 3] (by decide)
  exact ⟨hd, hn, hsearch d hd hn, visited, hvisited, Nat.succ.inj hvisited.length_eq⟩

end Search

end BinaryQuadratic

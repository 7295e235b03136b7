import Mathlib.Data.List.GetD
import Mathlib.Data.List.Permutation
import BinaryQuadratic.Proofs.Search.Exchanges

/-! The orders of a list that a walk by exchanges visits. Counters that start at zero drive the walk
through the exchanges of all positions, each arrangement is met once, and since there are as many
exchanges as there are other orders, no order is left out. -/

namespace BinaryQuadratic.Search

open Equiv Equiv.Perm

variable {β σ : Type}

section Walk

variable {visit : List β → σ → Option σ}

def step (visit : List β → σ → Option σ) (x : List β × σ) (e : ℕ × ℕ) : Option (List β × σ) :=
  let l := exchange x.1 (1 + e.1) (1 + e.2)
  (visit l x.2).map (l, ·)

theorem visitOrders_of_lt {i v : ℕ} (h : v < i) (vs : List ℕ) (l : List β) (s : σ) :
    visitOrders visit i (v :: vs) l s = (step visit (l, s) (partner i v, i)).bind fun x =>
      visitOrders visit 1 (List.replicate (i - 1) 0 ++ (v + 1) :: vs) x.1 x.2 := by
  rw [visitOrders, if_pos h]
  simp only [step]
  cases visit (exchange l (1 + partner i v) (1 + i)) s <;> rfl

theorem visitOrders_of_le {i v : ℕ} (h : i ≤ v) (vs : List ℕ) (l : List β) (s : σ) :
    visitOrders visit i (v :: vs) l s = visitOrders visit (i + 1) vs l s := by
  rw [visitOrders, if_neg (not_lt.2 h)]

/-- Counters that are zero lead through the exchanges up to their last position, and leave the walk
at the position after it. -/
def Drives (visit : List β → σ → Option σ) (k : ℕ) : Prop :=
  ∀ (rest : List ℕ) (l : List β) (s : σ),
    visitOrders visit 1 (List.replicate k 0 ++ rest) l s =
      ((exchanges k).foldlM (step visit) (l, s)).bind fun x =>
        visitOrders visit (k + 1) rest x.1 x.2

theorem Drives.counter {k : ℕ} (h : Drives visit k) (rest : List ℕ) (d : ℕ) :
    ∀ (v : ℕ) (l : List β) (s : σ), v + d = k + 1 →
      visitOrders visit (k + 1) (v :: rest) l s =
        (((List.range' v d).flatMap fun c => (partner (k + 1) c, k + 1) :: exchanges k).foldlM
          (step visit) (l, s)).bind fun x => visitOrders visit (k + 2) rest x.1 x.2 := by
  induction d with
  | zero =>
    intro v l s hv
    rw [visitOrders_of_le (by omega)]
    rfl
  | succ d ih =>
    intro v l s hv
    rw [visitOrders_of_lt (by omega), List.range'_succ, List.flatMap_cons, List.cons_append,
      List.foldlM_cons, Option.bind_eq_bind, Option.bind_assoc]
    refine congrArg _ (funext fun x => ?_)
    rw [Nat.add_sub_cancel, h, List.foldlM_append, Option.bind_eq_bind, Option.bind_assoc]
    exact congrArg _ (funext fun y => ih (v + 1) y.1 y.2 (by omega))

theorem drives (visit : List β → σ → Option σ) (k : ℕ) : Drives visit k := by
  induction k with
  | zero => exact fun rest l s => rfl
  | succ k ih =>
    intro rest l s
    have hrange : List.range (k + 1) = List.range' 0 (k + 1) := List.range_eq_range'
    rw [List.replicate_succ', List.append_assoc, List.singleton_append, ih, exchanges, repeated,
      List.foldlM_append, hrange, Option.bind_eq_bind, Option.bind_assoc]
    exact congrArg _ (funext fun x => ih.counter rest (k + 1) 0 x.1 x.2 (Nat.zero_add _))

def visits (l : List β) : List (ℕ × ℕ) → List (List β)
  | [] => []
  | e :: es => exchange l (1 + e.1) (1 + e.2) :: visits (exchange l (1 + e.1) (1 + e.2)) es

theorem foldlM_step (es : List (ℕ × ℕ)) (l : List β) (s : σ) :
    (es.foldlM (step visit) (l, s)).map Prod.snd =
      (visits l es).foldlM (fun s l => visit l s) s := by
  induction es generalizing l s with
  | nil => rfl
  | cons e es ih =>
    rw [visits, List.foldlM_cons, List.foldlM_cons]
    simp only [step]
    cases hvisit : visit (exchange l (1 + e.1) (1 + e.2)) s with
    | none => rfl
    | some s' => exact ih _ s'

theorem visitOrders_zeros (k : ℕ) (l : List β) (s : σ) :
    visitOrders visit 1 (List.replicate k 0) l s =
      (visits l (exchanges k)).foldlM (fun s l => visit l s) s := by
  have hdrives := drives visit k [] l s
  rw [List.append_nil] at hdrives
  rw [hdrives, ← foldlM_step, Option.map_eq_bind]
  refine congrArg _ (funext fun x => ?_)
  rw [visitOrders]
  rfl

end Walk

section Lists

variable {l : List β} {first : β} {p q : Perm ℕ}

theorem getElem?_exchange {i j : ℕ} (hi : i < l.length) (hj : j < l.length) (x : ℕ) :
    (exchange l i j)[x]? = l[swap i j x]? := by
  have hexchange : exchange l i j = (l.set i l[j]).set j l[i] := by
    rw [exchange, List.getElem?_eq_getElem hi, List.getElem?_eq_getElem hj]
  rw [hexchange, swap_apply_def]
  by_cases hxj : x = j
  · subst hxj
    by_cases hxi : x = i
    · subst hxi
      simp [hi]
    · simp [hxi, hi, hj]
  · by_cases hxi : x = i
    · subst hxi
      simp [Ne.symm hxj, hi, hj]
    · simp [hxi, hxj, Ne.symm hxi, Ne.symm hxj]

def arranged (first : β) (p : Perm ℕ) (l : List β) : List β :=
  (List.range l.length).map fun i => l.getD (p i) first

theorem getElem?_arranged (x : ℕ) : (arranged first p l)[x]? =
    if x < l.length then some (l.getD (p x) first) else none := by
  rw [arranged, List.getElem?_map]
  by_cases hx : x < l.length
  · rw [List.getElem?_range hx, if_pos hx, Option.map_some]
  · rw [List.getElem?_eq_none (by simpa using hx), if_neg hx, Option.map_none]

theorem arranged_one (first : β) (l : List β) : arranged first 1 l = l := by
  refine List.ext_getElem? fun x => ?_
  rw [getElem?_arranged]
  by_cases hx : x < l.length
  · rw [if_pos hx, one_apply, List.getD_eq_getElem _ _ hx, List.getElem?_eq_getElem hx]
  · rw [if_neg hx, List.getElem?_eq_none (not_lt.1 hx)]

theorem exchange_arranged {i j : ℕ} (hi : i < l.length) (hj : j < l.length) :
    exchange (first :: arranged first p l) (1 + i) (1 + j) =
      first :: arranged first (p * swap i j) l := by
  have hlen : (first :: arranged first p l).length = l.length + 1 := by simp [arranged]
  refine List.ext_getElem? fun x => ?_
  rw [getElem?_exchange (by omega) (by omega)]
  cases x with
  | zero => rw [swap_apply_of_ne_of_ne (by omega) (by omega), List.getElem?_cons_zero,
      List.getElem?_cons_zero]
  | succ x =>
    have hswap : swap (1 + i) (1 + j) (x + 1) = swap i j x + 1 := by
      simp only [swap_apply_def]
      split_ifs <;> omega
    have hlt : swap i j x < l.length ↔ x < l.length := by
      rw [swap_apply_def]
      split_ifs <;> omega
    rw [hswap, List.getElem?_cons_succ, List.getElem?_cons_succ, getElem?_arranged,
      getElem?_arranged, Perm.mul_apply]
    exact if_congr hlt rfl rfl

theorem visits_arranged (first : β) (p : Perm ℕ) {es : List (ℕ × ℕ)}
    (h : ∀ e ∈ es, e.1 < l.length ∧ e.2 < l.length) :
    visits (first :: arranged first p l) es =
      (arrangements p es).map fun q => first :: arranged first q l := by
  induction es generalizing p with
  | nil => rfl
  | cons e es ih =>
    obtain ⟨hi, hj⟩ := h e (by simp)
    rw [visits, exchange_arranged hi hj, ih _ fun e he => h e (by simp [he]), arrangements,
      List.map_cons]

def tours (first : β) (l : List β) : List (List β) :=
  (orders (exchanges (l.length - 1))).map fun q => first :: arranged first q l

theorem exchanges_bounded_length (l : List β) :
    ∀ e ∈ exchanges (l.length - 1), e.1 < l.length ∧ e.2 < l.length := by
  cases l with
  | nil => exact fun e he => absurd he List.not_mem_nil
  | cons a l => exact exchanges_bounded l.length

theorem cons_visits_eq_tours (first : β) (l : List β) :
    (first :: l) :: visits (first :: l) (exchanges (l.length - 1)) = tours first l := by
  have hvisits := visits_arranged first 1 (exchanges_bounded_length l)
  rw [arranged_one] at hvisits
  rw [hvisits, tours, orders, List.map_cons, arranged_one]

theorem arranged_perm (hp : FixesFrom l.length p) : (arranged first p l).Perm l := by
  have hsub : (List.range l.length).map p ⊆ List.range l.length := by
    intro x hx
    obtain ⟨i, hi, rfl⟩ := List.mem_map.1 hx
    exact List.mem_range.2 (hp.apply_lt (List.mem_range.1 hi))
  have hrange : ((List.range l.length).map p).Perm (List.range l.length) :=
    ((List.nodup_range.map p.injective).subperm hsub).perm_of_length_le (by simp)
  have hmap := hrange.map fun i => l.getD i first
  rw [List.map_map] at hmap
  have hone : (List.range l.length).map (fun i => l.getD i first) = l := arranged_one first l
  rwa [hone] at hmap

theorem eq_of_arranged_eq (hl : l.Nodup) (hp : FixesFrom l.length p) (hq : FixesFrom l.length q)
    (h : arranged first p l = arranged first q l) : p = q := by
  ext x
  by_cases hx : x < l.length
  · have hget := congrArg (·[x]?) h
    simp only [getElem?_arranged, if_pos hx, Option.some.injEq] at hget
    rw [List.getD_eq_getElem _ _ (hp.apply_lt hx),
      List.getD_eq_getElem _ _ (hq.apply_lt hx)] at hget
    exact hl.getElem_inj_iff.1 hget
  · rw [hp x (not_lt.1 hx), hq x (not_lt.1 hx)]

theorem nodup_tours (hl : l.Nodup) : (tours first l).Nodup := by
  refine (sweeps _).nodup.map_on fun p hp q hq h => ?_
  have hbounded := exchanges_bounded_length l
  exact eq_of_arranged_eq hl (fixesFrom_of_mem_orders hbounded hp)
    (fixesFrom_of_mem_orders hbounded hq) (List.cons.inj h).2

theorem length_tours : (tours first l).length = l.length.factorial := by
  rw [tours, List.length_map, length_orders, length_exchanges]
  cases l with
  | nil => rfl
  | cons a l => rfl

theorem mem_tours_iff (hl : l.Nodup) {t : List β} :
    t ∈ tours first l ↔ ∃ r : List β, r.Perm l ∧ t = first :: r := by
  have hsub : tours first l ⊆ l.permutations.map (first :: ·) := by
    intro t ht
    obtain ⟨q, hq, rfl⟩ := List.mem_map.1 ht
    refine List.mem_map_of_mem (List.mem_permutations.2 (arranged_perm ?_))
    exact fixesFrom_of_mem_orders (exchanges_bounded_length l) hq
  have hlen : (l.permutations.map (first :: ·)).length ≤ (tours first l).length := by
    rw [List.length_map, List.length_permutations, length_tours]
  have hperm := ((nodup_tours hl).subperm hsub).perm_of_length_le hlen
  rw [hperm.mem_iff, List.mem_map]
  simp only [List.mem_permutations, eq_comm]

end Lists

end BinaryQuadratic.Search

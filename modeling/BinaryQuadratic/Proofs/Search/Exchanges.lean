import Mathlib.GroupTheory.Perm.Cycle.Basic
import BinaryQuadratic.Search.Tour

/-! Exchanges of positions as permutations. The exchanges up to a position are those up to the one
before, over and over, with an exchange of the new position in between. What they amount to in the
end is a cycle or an exchange of the outermost positions, and this is what makes the new position
hold each element once. -/

namespace BinaryQuadratic.Search

open Equiv Equiv.Perm

section Cycles

variable {p : Perm ℕ} {s : Finset ℕ} {a b : ℕ}

theorem isCycleOn_mul_swap (hp : p.IsCycleOn s) (ha : a ∈ s) (hb : b ∉ s) (hfix : p b = b) :
    (p * swap a b).IsCycleOn (insert b s : Finset ℕ) := by
  set q := p * swap a b with hq
  have hqa : q a = b := by rw [hq, Perm.mul_apply, swap_apply_left, hfix]
  have hqb : q b = p a := by rw [hq, Perm.mul_apply, swap_apply_right]
  have hqx : ∀ x, x ≠ a → x ≠ b → q x = p x := fun x hxa hxb => by
    rw [hq, Perm.mul_apply, swap_apply_of_ne_of_ne hxa hxb]
  have hmem : ∀ n : ℕ, (p ^ n) a ∈ s := fun n => hp.1.mapsTo.perm_pow n ha
  -- the new cycle is the old one, with `b` between `a` and what came after it
  have hcycle : ∀ n : ℕ, q.SameCycle a ((p ^ n) a) := by
    intro n
    induction n with
    | zero => exact .refl q a
    | succ n ih =>
      rw [pow_succ', Perm.mul_apply]
      by_cases hx : (p ^ n) a = a
      · rw [hx, ← hqb, ← hqa, sameCycle_apply_right, sameCycle_apply_right]
      · rw [← hqx _ hx (ne_of_mem_of_not_mem (hmem n) hb), sameCycle_apply_right]
        exact ih
  have hall : ∀ x ∈ insert b s, q.SameCycle a x := by
    intro x hx
    rcases Finset.mem_insert.1 hx with rfl | hx
    · rw [← hqa, sameCycle_apply_right]
    · obtain ⟨n, -, rfl⟩ := hp.exists_pow_eq ha hx
      exact hcycle n
  have hmaps : Set.MapsTo q (insert b s : Finset ℕ) (insert b s : Finset ℕ) := by
    intro x hx
    rw [Finset.mem_coe, Finset.mem_insert] at hx ⊢
    by_cases hxa : x = a
    · exact .inl (hxa ▸ hqa)
    · rcases hx with rfl | hx
      · exact .inr (hqb ▸ hp.1.mapsTo ha)
      · exact .inr (hqx x hxa (ne_of_mem_of_not_mem hx hb) ▸ hp.1.mapsTo hx)
  exact ⟨((Finset.finite_toSet _).injOn_iff_bijOn_of_mapsTo hmaps).1 q.injective.injOn,
    fun x hx y hy => (hall x hx).symm.trans (hall y hy)⟩

def FixesFrom (n : ℕ) (p : Perm ℕ) : Prop := ∀ j, n ≤ j → p j = j

theorem FixesFrom.apply_lt {n i : ℕ} (h : FixesFrom n p) (hi : i < n) : p i < n := by
  by_contra hle
  have hfix : p i = i := p.injective (h (p i) (not_lt.1 hle))
  omega

theorem FixesFrom.mul {n : ℕ} {q : Perm ℕ} (hp : FixesFrom n p) (hq : FixesFrom n q) :
    FixesFrom n (p * q) := fun j hj => by
  rw [Perm.mul_apply, hq j hj, hp j hj]

theorem fixesFrom_swap {n : ℕ} (ha : a < n) (hb : b < n) : FixesFrom n (swap a b) := fun j hj =>
  swap_apply_of_ne_of_ne (by omega) (by omega)

theorem swap_pow_of_even {k : ℕ} (hk : Even k) : swap a b ^ k = 1 := by
  obtain ⟨r, rfl⟩ := hk
  rw [← two_mul, pow_mul, sq, swap_mul_self, one_pow]

theorem pow_eq_one_of_isCycleOn {n : ℕ} (h : p.IsCycleOn (Finset.range n)) (hfix : FixesFrom n p) :
    p ^ n = 1 := by
  ext x
  by_cases hx : x < n
  · have hcard := h.pow_card_apply (Finset.mem_range.2 hx)
    rwa [Finset.card_range] at hcard
  · exact pow_apply_eq_self_of_apply_eq_self (hfix x (not_lt.1 hx)) n

end Cycles

section Arrangements

def arrangements (p : Perm ℕ) : List (ℕ × ℕ) → List (Perm ℕ)
  | [] => []
  | e :: es => p * swap e.1 e.2 :: arrangements (p * swap e.1 e.2) es

def net (es : List (ℕ × ℕ)) : Perm ℕ := (es.map fun e => swap e.1 e.2).prod

def orders (es : List (ℕ × ℕ)) : List (Perm ℕ) := 1 :: arrangements 1 es

theorem net_append (es fs : List (ℕ × ℕ)) : net (es ++ fs) = net es * net fs := by
  rw [net, List.map_append, List.prod_append, ← net, ← net]

theorem net_cons (e : ℕ × ℕ) (es : List (ℕ × ℕ)) : net (e :: es) = swap e.1 e.2 * net es := by
  rw [net, List.map_cons, List.prod_cons, ← net]

theorem arrangements_append (p : Perm ℕ) (es fs : List (ℕ × ℕ)) :
    arrangements p (es ++ fs) = arrangements p es ++ arrangements (p * net es) fs := by
  induction es generalizing p with
  | nil => simp [arrangements, net]
  | cons e es ih => rw [List.cons_append, arrangements, arrangements, ih, net_cons, mul_assoc,
      List.cons_append]

theorem arrangements_eq_map (p : Perm ℕ) (es : List (ℕ × ℕ)) :
    arrangements p es = (arrangements 1 es).map (p * ·) := by
  have key : ∀ q : Perm ℕ, arrangements (p * q) es = (arrangements q es).map (p * ·) := by
    intro q
    induction es generalizing q with
    | nil => rfl
    | cons e es ih => rw [arrangements, arrangements, List.map_cons, mul_assoc, ih]
  rw [← key, mul_one]

theorem length_orders (es : List (ℕ × ℕ)) : (orders es).length = es.length + 1 := by
  have key : ∀ p, (arrangements p es).length = es.length := by
    induction es with
    | nil => exact fun _ => rfl
    | cons e es ih => exact fun p => congrArg Nat.succ (ih _)
  rw [orders, List.length_cons, key]

theorem orders_append_cons (es fs : List (ℕ × ℕ)) (a z : ℕ) :
    orders (es ++ (a, z) :: fs) = orders es ++ (orders fs).map (net es * swap a z * ·) := by
  rw [orders, arrangements_append, one_mul, arrangements, arrangements_eq_map (net es * swap a z),
    orders, orders, List.map_cons, mul_one, List.cons_append]

section Bounded

variable {n : ℕ} {es : List (ℕ × ℕ)} (h : ∀ e ∈ es, e.1 < n ∧ e.2 < n)

include h

theorem fixesFrom_net : FixesFrom n (net es) := by
  induction es with
  | nil => exact fun _ _ => rfl
  | cons e es ih =>
    obtain ⟨h1, h2⟩ := h e (by simp)
    rw [net_cons]
    exact (fixesFrom_swap h1 h2).mul (ih fun e he => h e (by simp [he]))

theorem fixesFrom_of_mem_arrangements {p q : Perm ℕ} (hp : FixesFrom n p)
    (hq : q ∈ arrangements p es) : FixesFrom n q := by
  induction es generalizing p with
  | nil => cases hq
  | cons e es ih =>
    obtain ⟨h1, h2⟩ := h e (by simp)
    have hnext := hp.mul (fixesFrom_swap h1 h2)
    rcases List.mem_cons.1 hq with rfl | hq
    · exact hnext
    · exact ih (fun e he => h e (by simp [he])) hnext hq

theorem fixesFrom_of_mem_orders {q : Perm ℕ} (hq : q ∈ orders es) : FixesFrom n q := by
  have hone : FixesFrom n 1 := fun _ _ => rfl
  rcases List.mem_cons.1 hq with rfl | hq
  · exact hone
  · exact fixesFrom_of_mem_arrangements h hone hq

end Bounded

end Arrangements

section Blocks

def repeated (es : List (ℕ × ℕ)) (a : ℕ → ℕ) (z n : ℕ) : List (ℕ × ℕ) :=
  es ++ (List.range n).flatMap fun c => (a c, z) :: es

def blockStart (es : List (ℕ × ℕ)) (a : ℕ → ℕ) (z : ℕ) : ℕ → Perm ℕ
  | 0 => 1
  | c + 1 => blockStart es a z c * net es * swap (a c) z

variable (es : List (ℕ × ℕ)) (a : ℕ → ℕ) (z : ℕ)

theorem repeated_succ (n : ℕ) :
    repeated es a z (n + 1) = repeated es a z n ++ (a n, z) :: es := by
  rw [repeated, repeated, List.range_succ, List.flatMap_append, List.flatMap_singleton,
    List.append_assoc]

theorem net_repeated (n : ℕ) : net (repeated es a z n) = blockStart es a z n * net es := by
  induction n with
  | zero => rw [repeated, List.range_zero, List.flatMap_nil, List.append_nil, blockStart, one_mul]
  | succ n ih => rw [repeated_succ, net_append, ih, net_cons, blockStart, mul_assoc _ (swap _ _)]

theorem orders_repeated (n : ℕ) : orders (repeated es a z n) =
    (List.range (n + 1)).flatMap fun c => (orders es).map (blockStart es a z c * ·) := by
  induction n with
  | zero => simp [repeated, blockStart]
  | succ n ih =>
    rw [repeated_succ, orders_append_cons, ih, net_repeated, List.range_succ (n := n + 1),
      List.flatMap_append, List.flatMap_singleton, blockStart]

variable {es a z}

/-- The blocks have no permutation in common if they move different elements to the new position. -/
theorem nodup_orders_repeated {n : ℕ} (hnodup : (orders es).Nodup)
    (hfix : ∀ q ∈ orders es, q z = z)
    (hdistinct : ∀ c ≤ n, ∀ c' ≤ n, blockStart es a z c z = blockStart es a z c' z → c = c') :
    (orders (repeated es a z n)).Nodup := by
  rw [orders_repeated, List.nodup_flatMap]
  constructor
  · exact fun c _ => hnodup.map (mul_right_injective _)
  · refine List.nodup_range.imp_of_mem fun {c c'} hc hc' hne => ?_
    intro q hq hq'
    obtain ⟨v, hv, rfl⟩ := List.mem_map.1 hq
    obtain ⟨v', hv', heq⟩ := List.mem_map.1 hq'
    have hz := congrArg (· z) heq
    simp only [Perm.mul_apply, hfix v hv, hfix v' hv'] at hz
    exact hne (hdistinct c (by simpa [Nat.lt_succ_iff] using hc) c'
      (by simpa [Nat.lt_succ_iff] using hc') hz.symm)

end Blocks

section Even

variable {es : List (ℕ × ℕ)} {z : ℕ}

theorem blockStart_const (a c : ℕ) :
    blockStart es (fun _ => a) z c = (net es * swap a z) ^ c := by
  induction c with
  | zero => rfl
  | succ c ih => rw [blockStart, ih, pow_succ, mul_assoc]

variable (hcycle : (net es).IsCycleOn (Finset.range z)) (hfix : FixesFrom z (net es)) (hz : 0 < z)

include hcycle hfix hz

theorem isCycleOn_turn : (net es * swap 0 z).IsCycleOn (Finset.range (z + 1)) := by
  rw [Finset.range_add_one]
  exact isCycleOn_mul_swap hcycle (by simpa using hz) (by simp) (hfix z (le_refl z))

theorem blockStart_const_distinct {c c' : ℕ} (hc : c ≤ z) (hc' : c' ≤ z)
    (h : blockStart es (fun _ => 0) z c z = blockStart es (fun _ => 0) z c' z) : c = c' := by
  rw [blockStart_const, blockStart_const,
    (isCycleOn_turn hcycle hfix hz).pow_apply_eq_pow_apply (by simp), Finset.card_range] at h
  exact h.eq_of_lt_of_lt (by omega) (by omega)

theorem net_repeated_const : net (repeated es (fun _ => 0) z z) = swap 0 z := by
  have hturn : FixesFrom (z + 1) (net es * swap 0 z) :=
    FixesFrom.mul (fun j hj => hfix j (by omega)) (fixesFrom_swap (by omega) (by omega))
  have hpow := pow_eq_one_of_isCycleOn (isCycleOn_turn hcycle hfix hz) hturn
  rw [pow_succ, ← mul_assoc] at hpow
  rw [net_repeated, blockStart_const, eq_inv_of_mul_eq_one_left hpow, swap_inv]

end Even

section Odd

/-- Exchanges of `z` with the positions below `c`, one after the other. -/
def wheel (z : ℕ) : ℕ → Perm ℕ
  | 0 => 1
  | c + 1 => wheel z c * swap c z

variable {z c : ℕ}

theorem wheel_apply {x : ℕ} (hc : c ≤ x) (hx : x < z) : wheel z c x = x := by
  induction c with
  | zero => rfl
  | succ c ih =>
    rw [wheel, Perm.mul_apply, swap_apply_of_ne_of_ne (by omega) (by omega), ih (by omega)]

theorem wheel_succ_apply (hc : c < z) : wheel z (c + 1) z = c := by
  rw [wheel, Perm.mul_apply, swap_apply_right, wheel_apply (le_refl c) hc]

theorem isCycleOn_wheel (hc : c ≤ z) :
    (wheel z c).IsCycleOn (insert z (Finset.range c) : Finset ℕ) := by
  induction c with
  | zero => simp [wheel]
  | succ c ih =>
    have hnew : c ∉ insert z (Finset.range c) := by
      simp only [Finset.mem_insert, Finset.mem_range]
      omega
    have hcycle := isCycleOn_mul_swap (ih (by omega)) (Finset.mem_insert_self _ _) hnew
      (wheel_apply (le_refl c) (by omega))
    rwa [swap_comm, ← wheel, Finset.insert_comm, ← Finset.range_add_one] at hcycle

variable {es : List (ℕ × ℕ)} {k : ℕ} (hk : Even k) (hnet : net es = swap 0 k)

include hk hnet

theorem blockStart_id (hc : c ≤ k) : blockStart es id (k + 1) (c + 1) =
    net es * wheel (k + 1) (c + 1) * net es ^ c := by
  induction c with
  | zero => simp [blockStart, wheel]
  | succ c ih =>
    have hcommute : Commute (net es ^ (c + 1)) (swap (c + 1) (k + 1)) := by
      rcases Nat.lt_or_eq_of_le hc with hlt | heq
      · have hnodup : [0, k, c + 1, k + 1].Nodup := by
          simp only [List.nodup_cons, List.mem_cons, List.not_mem_nil, or_false,
            not_false_eq_true, List.nodup_nil, and_true]
          omega
        rw [hnet]
        exact (disjoint_swap_swap hnodup).commute.pow_left _
      · -- an even number of exchanges of the same positions changes nothing
        rw [heq, hnet, swap_pow_of_even hk]
        exact Commute.one_left _
    rw [blockStart, ih (by omega), mul_assoc _ (net es ^ c), ← pow_succ, mul_assoc, id_eq,
      hcommute.eq, ← mul_assoc, mul_assoc (net es), ← wheel]

theorem blockStart_id_apply (hc : c ≤ k) :
    blockStart es id (k + 1) (c + 1) (k + 1) = swap 0 k c := by
  have hfix : net es (k + 1) = k + 1 := by
    rw [hnet, swap_apply_of_ne_of_ne (by omega) (by omega)]
  rw [blockStart_id hk hnet hc, Perm.mul_apply, Perm.mul_apply,
    pow_apply_eq_self_of_apply_eq_self hfix, wheel_succ_apply (by omega), hnet]

theorem blockStart_id_distinct {c' : ℕ} (hc : c ≤ k + 1) (hc' : c' ≤ k + 1)
    (h : blockStart es id (k + 1) c (k + 1) = blockStart es id (k + 1) c' (k + 1)) : c = c' := by
  have hlt : ∀ x ≤ k, swap 0 k x < k + 1 := fun x hx =>
    (fixesFrom_swap (by omega) (by omega)).apply_lt (by omega)
  cases c with
  | zero =>
    cases c' with
    | zero => rfl
    | succ c' =>
      rw [blockStart_id_apply hk hnet (by omega)] at h
      exact absurd h (hlt c' (by omega)).ne'
  | succ c =>
    rw [blockStart_id_apply hk hnet (by omega)] at h
    cases c' with
    | zero => exact absurd h (hlt c (by omega)).ne
    | succ c' =>
      rw [blockStart_id_apply hk hnet (by omega)] at h
      exact congrArg Nat.succ ((swap 0 k).injective h)

theorem isCycleOn_net_repeated_id :
    (net (repeated es id (k + 1) (k + 1))).IsCycleOn (Finset.range (k + 2)) := by
  have hnet' : net (repeated es id (k + 1) (k + 1)) =
      swap 0 k * wheel (k + 1) (k + 1) * (swap 0 k)⁻¹ := by
    rw [net_repeated, blockStart_id hk hnet (le_refl k), hnet, swap_pow_of_even hk, mul_one,
      swap_inv]
  have hmaps : Set.MapsTo (swap 0 k) (Finset.range (k + 2)) (Finset.range (k + 2)) := by
    intro x hx
    rw [Finset.mem_coe, Finset.mem_range] at hx ⊢
    exact (fixesFrom_swap (by omega) (by omega)).apply_lt hx
  have himage : Set.image (swap 0 k) (Finset.range (k + 2)) = Finset.range (k + 2) :=
    (((Finset.finite_toSet _).injOn_iff_bijOn_of_mapsTo hmaps).1
      (swap 0 k).injective.injOn).image_eq
  have hcycle := (isCycleOn_wheel (le_refl (k + 1))).conj (g := swap 0 k)
  rwa [← Finset.range_add_one, himage, ← hnet'] at hcycle

end Odd

section Exchanges

/-- The exchanges that lead through all orders of the positions up to `k`. -/
def exchanges : ℕ → List (ℕ × ℕ)
  | 0 => []
  | k + 1 => repeated (exchanges k) (partner (k + 1)) (k + 1) (k + 1)

theorem partner_of_even {k : ℕ} (h : Even k) : partner k = fun _ => 0 :=
  funext fun _ => if_pos (Nat.even_iff.1 h)

theorem partner_of_odd {k : ℕ} (h : Odd k) : partner k = id :=
  funext fun _ => if_neg (by rw [Nat.odd_iff.1 h]; decide)

theorem partner_le {k c : ℕ} (h : c ≤ k) : partner k c ≤ k := by
  unfold partner
  split <;> omega

theorem exchanges_bounded (k : ℕ) : ∀ e ∈ exchanges k, e.1 < k + 1 ∧ e.2 < k + 1 := by
  induction k with
  | zero => exact fun e he => absurd he List.not_mem_nil
  | succ k ih =>
    have hold : ∀ e ∈ exchanges k, e.1 < k + 2 ∧ e.2 < k + 2 := fun e he => by
      have := ih e he
      omega
    intro e he
    rw [exchanges, repeated, List.mem_append, List.mem_flatMap] at he
    rcases he with he | ⟨c, hc, he⟩
    · exact hold e he
    · rcases List.mem_cons.1 he with rfl | he
      · have hle := partner_le (k := k + 1) (List.mem_range.1 hc).le
        exact ⟨Nat.lt_succ_of_le hle, Nat.lt_succ_self _⟩
      · exact hold e he

theorem length_exchanges (k : ℕ) : (exchanges k).length + 1 = (k + 1).factorial := by
  induction k with
  | zero => rfl
  | succ k ih =>
    rw [exchanges, ← length_orders, orders_repeated, Nat.factorial_succ, ← ih]
    simp [List.length_flatMap, length_orders]

/-- What the exchanges amount to: they end with the outermost positions exchanged if the number of
positions is odd, and with a cycle of all positions if it is even. -/
structure Sweeps (k : ℕ) : Prop where
  nodup : (orders (exchanges k)).Nodup
  net_of_even : Even k → net (exchanges k) = swap 0 k
  net_of_odd : Odd k → (net (exchanges k)).IsCycleOn (Finset.range (k + 1))

theorem sweeps (k : ℕ) : Sweeps k := by
  induction k with
  | zero => exact ⟨List.nodup_singleton _, fun _ => (swap_self 0).symm, fun h => by simp at h⟩
  | succ k ih =>
    have hbounded := exchanges_bounded k
    have hfix : ∀ q ∈ orders (exchanges k), q (k + 1) = k + 1 := fun q hq =>
      fixesFrom_of_mem_orders hbounded hq _ (le_refl _)
    rcases Nat.even_or_odd k with hk | hk
    · have hnet := ih.net_of_even hk
      have hsucc : exchanges (k + 1) = repeated (exchanges k) id (k + 1) (k + 1) := by
        rw [exchanges, partner_of_odd hk.add_one]
      refine ⟨?_, fun h => absurd hk.add_one (Nat.not_odd_iff_even.2 h), fun _ => ?_⟩
      · rw [hsucc]
        exact nodup_orders_repeated ih.nodup hfix fun c hc c' hc' =>
          blockStart_id_distinct hk hnet hc hc'
      · rw [hsucc]
        exact isCycleOn_net_repeated_id hk hnet
    · have hcycle := ih.net_of_odd hk
      have hnet := fixesFrom_net hbounded
      have hsucc : exchanges (k + 1) = repeated (exchanges k) (fun _ => 0) (k + 1) (k + 1) := by
        rw [exchanges, partner_of_even hk.add_one]
      refine ⟨?_, fun _ => ?_, fun h => absurd hk.add_one (Nat.not_even_iff_odd.2 h)⟩
      · rw [hsucc]
        exact nodup_orders_repeated ih.nodup hfix fun c hc c' hc' =>
          blockStart_const_distinct hcycle hnet k.succ_pos hc hc'
      · rw [hsucc]
        exact net_repeated_const hcycle hnet k.succ_pos

end Exchanges

end BinaryQuadratic.Search

import BinaryQuadratic.Proofs.Annealing.Samples
import BinaryQuadratic.Proofs.SampleSet.Growth

/-! Asking for more reads. The seeds of a few reads are the first ones of many, and a read depends
on its own seed only, so that the same solutions come first again. -/

namespace BinaryQuadratic.Annealing

open Coefficient Randomness SampleSet

variable {V α μ γ : Type} [Coefficient α] {m : Model V α}

theorem readAll?_append [Seedable γ] {r : Run V α} {seeds seeds' : List UInt64}
    {l l' : List (Solution α)} (h : Annealer.readAll? γ r seeds = some l)
    (h' : Annealer.readAll? γ r seeds' = some l') :
    Annealer.readAll? γ r (seeds ++ seeds') = some (l ++ l') := by
  induction seeds generalizing l with
  | nil =>
    obtain rfl := Option.some.inj h
    exact h'
  | cons seed seeds ih =>
    obtain ⟨s, hs, h⟩ := Option.bind_eq_some_iff.1 h
    obtain ⟨rest, hrest, h⟩ := Option.bind_eq_some_iff.1 h
    obtain rfl := Option.some.inj h
    rw [List.cons_append, Annealer.readAll?, hs, ih hrest]
    rfl

theorem exists_readSeeds_eq_append (μ : Type) [Seedable μ] (seed : UInt64) {k n : Nat}
    (h : k ≤ n) :
    ∃ later, Annealer.readSeeds μ seed n = Annealer.readSeeds μ seed k ++ later := by
  obtain ⟨d, rfl⟩ := Nat.exists_eq_add_of_le h
  exact ⟨_, draws_add _ k d _⟩

theorem collectEmpty?_eq (m : Model V α) (n : UInt64) : Annealer.collectEmpty? m n =
    some ⟨m.vartype, [⟨sampleOf m (.zeros 0), m.offset, n⟩]⟩ := by
  have hmerged : (tally ∅ ⟨.zeros 0, some m.offset, n⟩ m.offset).entries =
      [(.zeros 0, m.offset, n)] := by
    show [(PackedState.zeros 0, m.offset, 0 + n)] = _
    rw [zero_add]
  show some (ofRecords m.vartype ((tally ∅ _ _).entries.map _)) = _
  rw [hmerged, ofRecords, sortByEnergy, List.map_singleton, List.mergeSort_singleton]

theorem extendedBy_collectEmpty? {k n : UInt64} (hkn : k ≤ n) {fewer more : SampleSet V α}
    (h : Annealer.collectEmpty? m k = some fewer) (h' : Annealer.collectEmpty? m n = some more) :
    fewer.ExtendedBy more := by
  rw [collectEmpty?_eq] at h h'
  obtain rfl := Option.some.inj h
  obtain rfl := Option.some.inj h'
  exact ⟨rfl, _, List.Sublist.refl _, .cons ⟨rfl, rfl, hkn⟩ .nil⟩

variable [TotallyOrdered α]

theorem extendedBy_collect? [Seedable μ] [Seedable γ] (hm : m.WellFormed) (a : Annealer α)
    {k n : UInt64} (hkn : k ≤ n) (seed : UInt64) {fewer more : SampleSet V α}
    (h : Annealer.collect? μ γ a m k.toNat seed = some fewer)
    (h' : Annealer.collect? μ γ a m n.toNat seed = some more) : fewer.ExtendedBy more := by
  -- the seeds of the first reads are the same, so that only later solutions are added
  obtain ⟨later, hseeds⟩ := exists_readSeeds_eq_append μ seed (UInt64.le_iff_toNat_le.1 hkn)
  obtain ⟨l, hl, hall, hsum⟩ := exists_readAll? (γ := γ) hm a
    (Annealer.readSeeds μ seed k.toNat)
  obtain ⟨l', hl', hall', hsum'⟩ := exists_readAll? (γ := γ) hm a later
  have happend := readAll?_append hl hl'
  rw [← hseeds] at happend
  rw [Annealer.collect?, hl, Option.bind_some] at h
  rw [Annealer.collect?, happend, Option.bind_some] at h'
  have hlen : ∀ r ∈ l ++ l', r.state.len = m.numVariables := by
    intro r hr
    obtain hr | hr := List.mem_append.1 hr
    · obtain ⟨e, -, ho⟩ := hall r hr
      exact ho.len_eq
    · obtain ⟨e, -, ho⟩ := hall' r hr
      exact ho.len_eq
  have hreads := congrArg List.length hseeds
  rw [List.length_append, Annealer.readSeeds, length_draws] at hreads
  refine extendedBy_of_append hlen ?_ h h'
  rw [List.map_append, List.sum_append, hsum, hsum', ← hreads]
  exact n.toNat_lt

/-- Asking the same annealer for more reads keeps every record, its energy and the order of the
records, and takes no occurrence away. -/
theorem sampleWith_extendedBy [DecidableEq V] [Seedable μ] [Seedable γ] (hm : m.Reachable)
    {a : Annealer α} {seed : UInt64} (hvalid : a.validate = .ok ())
    (hcancel : a.isCancelled = false) (hseed : a.seed = some seed) {k n : UInt64} (hk : 1 ≤ k) (hkn : k ≤ n)
    (fresh fresh' : UInt64) :
    ∃ fewer more, a.sampleWith μ γ m k fresh = .ok fewer ∧
      a.sampleWith μ γ m n fresh' = .ok more ∧ fewer.ExtendedBy more := by
  have hn : 1 ≤ n := UInt64.le_trans hk hkn
  have hpos : ∀ {n : UInt64}, 1 ≤ n → 1 ≤ n.toNat ∧ n ≠ 0 := fun h =>
    ⟨UInt64.le_iff_toNat_le.1 h, UInt64.pos_iff_ne_zero.1 (UInt64.lt_of_lt_of_le (by decide) h)⟩
  have hok : ∀ {n fresh : UInt64} {set : SampleSet V α}, n ≠ 0 →
      (if m.isEmpty then Annealer.collectEmpty? m n
        else Annealer.collect? μ γ a m n.toNat seed) = some set →
      a.sampleWith μ γ m n fresh = .ok set := fun hn hset =>
    sampleWith_eq_ok_iff.2 ⟨hn, hvalid, hcancel, by rwa [hseed, Option.getD_some]⟩
  by_cases hempty : m.isEmpty = true
  · obtain ⟨fewer, hfewer, -⟩ := exists_collectEmpty? hempty (hpos hk).1
    obtain ⟨more, hmore, -⟩ := exists_collectEmpty? hempty (hpos hn).1
    exact ⟨fewer, more, hok (hpos hk).2 (by rwa [if_pos hempty]),
      hok (hpos hn).2 (by rwa [if_pos hempty]), extendedBy_collectEmpty? hkn hfewer hmore⟩
  · obtain ⟨fewer, hfewer, -⟩ := exists_collect? (μ := μ) (γ := γ) hm.wellFormed a (hpos hk).1 seed
    obtain ⟨more, hmore, -⟩ := exists_collect? (μ := μ) (γ := γ) hm.wellFormed a (hpos hn).1 seed
    exact ⟨fewer, more, hok (hpos hk).2 (by rwa [if_neg hempty]),
      hok (hpos hn).2 (by rwa [if_neg hempty]),
      extendedBy_collect? hm.wellFormed a hkn seed hfewer hmore⟩

theorem sampleWith_extendedBy_three_doubles :
    let m : Model Nat Float :=
      (((Model.empty .spin).addVariable 0 (1 / 10)).couple 0 1 (2 / 10)).addVariable 2 (0 / 0)
    let a : Annealer Float := { numSweeps := 4, sweepsPerBeta := 2, seed := some 7 }
    m.Reachable ∧ a.validate = .ok () ∧ a.isCancelled = false ∧ a.seed = some 7 ∧
      (1 : UInt64) ≤ 2 ∧ (2 : UInt64) ≤ 5 ∧
      ∃ fewer more, a.sampleWith ChaCha20 Pcg64 m 2 0 = .ok fewer ∧
        a.sampleWith ChaCha20 Pcg64 m 5 0 = .ok more ∧ fewer.ExtendedBy more := by
  intro m a
  have hm : m.Reachable :=
    .addVariable 2 (0 / 0) (.addInteraction (.addVariable 0 (1 / 10) (.empty .spin))
      (u := 0) (v := 1) (b := 2 / 10) rfl)
  have hvalid : a.validate = .ok () := by
    simp [a, Annealer.validate, Betas.isSchedule, Betas.validate]
  have hcancel : a.isCancelled = false := rfl
  have hseed : a.seed = some 7 := rfl
  have hk : (1 : UInt64) ≤ 2 := by decide
  have hkn : (2 : UInt64) ≤ 5 := by decide
  exact ⟨hm, hvalid, hcancel, hseed, hk, hkn,
    sampleWith_extendedBy hm hvalid hcancel hseed hk hkn 0 0⟩

end BinaryQuadratic.Annealing

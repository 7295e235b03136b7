import Mathlib.Algebra.Order.Floor.Div
import BinaryQuadratic.Proofs.PackedState

/-! Reading and writing packed states. Whatever bytes a state was filled with, its padding is clear,
so that a state, the list of its bits and the list of its values in either domain determine one
another, and an update is seen at its own position only. -/

namespace BinaryQuadratic.PackedState

open Randomness

variable {s t : PackedState} {i : Nat}

section Words

/-- The longest state whose byte count does not overflow. -/
def maxLength : UInt64 := 0xFFFFFFFFFFFFFFF8

theorem toNat_byteCountOfWord {len : UInt64} (h : len ≤ maxLength) :
    (byteCountOfWord len).toNat = byteCount len.toNat := by
  have hlen : len.toNat ≤ 2 ^ 64 - 8 := UInt64.le_iff_toNat_le.1 h
  -- the sum wraps around at the longest length, and the difference takes it back
  have hsum : (len + 8 - 1).toNat = len.toNat + 7 := by
    rw [UInt64.toNat_sub, UInt64.toNat_add]
    simp only [UInt64.reduceToNat]
    omega
  rw [byteCountOfWord, byteCount, UInt64.toNat_div, hsum]
  rfl

theorem ofLength_eq_zeros {len : UInt64} (h : len ≤ maxLength) :
    ofLength len = zeros len.toNat := by
  rw [ofLength, zeros, toNat_byteCountOfWord h]

end Words

section Updates

theorem Fits.get?_eq_ite (h : s.Fits) (i : Nat) :
    s.get? i = if i < s.len then some (s.bit i) else none := by
  simp [get?, h.holds_eq]

theorem Fits.set?_eq (h : s.Fits) (hi : i < s.len) (b : Bool) :
    s.set? i b = some (s.assign i b) := by
  simp [set?, h.holds_eq, hi]

theorem Fits.get?_assign (h : s.Fits) (hi : i < s.len) (b : Bool) (j : Nat) :
    (s.assign i b).get? j = if j = i then some b else s.get? j := by
  rw [(h.assign i b).get?_eq_ite, h.get?_eq_ite, bit_assign (h.div_lt hi), len_assign]
  by_cases hj : j = i
  · subst hj
    simp [hi]
  · simp [hj]

theorem Fits.get?_toggle (h : s.Fits) (hi : i < s.len) (j : Nat) :
    (s.toggle i).get? j = if j = i then (s.get? i).map not else s.get? j := by
  rw [(h.toggle i).get?_eq_ite, h.get?_eq_ite, h.get?_eq_ite, bit_toggle (h.div_lt hi), len_toggle]
  by_cases hj : j = i
  · subst hj
    simp [hi]
  · simp [hj]

end Updates

section Reading

theorem Fits.getElem?_bits (h : s.Fits) (i : Nat) : s.bits[i]? = s.get? i := by
  rw [h.get?_eq_ite, bits, List.getElem?_map]
  by_cases hi : i < s.len
  · rw [List.getElem?_range hi, if_pos hi, Option.map_some]
  · rw [List.getElem?_eq_none (by simpa using hi), if_neg hi, Option.map_none]

def Cursor.after (s : PackedState) (k : Nat) : Cursor := (fun c => c.next.2)^[k] (.start s)

theorem Cursor.after_eq (s : PackedState) (k : Nat) : Cursor.after s k = ⟨s, min k s.len⟩ := by
  induction k with
  | zero => simp [after, start]
  | succ k ih =>
    rw [after, Function.iterate_succ_apply', ← after, ih, next]
    by_cases hk : s.len ≤ k
    · rw [Nat.min_eq_right hk, if_pos (le_refl _), Nat.min_eq_right (Nat.le_succ_of_le hk)]
    · have hlt : k < s.len := Nat.lt_of_not_le hk
      rw [Nat.min_eq_left hlt.le, if_neg hk, Nat.min_eq_left hlt]

theorem Fits.next_after (h : s.Fits) (k : Nat) : (Cursor.after s k).next.1 = s.get? k := by
  rw [Cursor.after_eq, h.get?_eq_ite, Cursor.next]
  by_cases hk : k < s.len
  · rw [Nat.min_eq_left hk.le, if_neg (Nat.not_le_of_lt hk), if_pos hk]
  · rw [Nat.min_eq_right (Nat.le_of_not_lt hk), if_pos (le_refl _), if_neg hk]

theorem Canonical.eq_iff (hs : s.Canonical) (ht : t.Canonical) :
    s = t ↔ s.len = t.len ∧ ∀ i < s.len, s.get? i = t.get? i := by
  constructor
  · rintro rfl
    exact ⟨rfl, fun _ _ => rfl⟩
  · rintro ⟨hlen, hget⟩
    refine hs.eq_of_bits_eq ht (List.ext_getElem? fun i => ?_)
    rw [hs.fits.getElem?_bits, ht.fits.getElem?_bits]
    by_cases hi : i < s.len
    · exact hget i hi
    · rw [hs.fits.get?_eq_ite, ht.fits.get?_eq_ite, if_neg hi, if_neg (hlen ▸ hi)]

end Reading

section Values

variable {d : Vartype} {values : List Int}

theorem mapM_bit?_eq_some_iff {bits : List Bool} :
    values.mapM d.bit? = some bits ↔ values = bits.map d.value := by
  induction values generalizing bits with
  | nil => cases bits <;> simp
  | cons x values ih =>
    rw [List.mapM_cons]
    cases bits with
    | nil => cases hx : d.bit? x <;> cases hr : values.mapM d.bit? <;> simp
    | cons b bits =>
      rw [List.map_cons, List.cons.injEq, ← ih, ← Vartype.bit?_eq_some_iff]
      cases hx : d.bit? x <;> cases hr : values.mapM d.bit? <;> simp

theorem values_of_ofValues? (h : ofValues? d values = some s) : s.values d = values := by
  obtain ⟨bits, hbits, rfl⟩ := Option.map_eq_some_iff.1 h
  rw [PackedState.values, bits_ofBits, mapM_bit?_eq_some_iff.1 hbits]

theorem exists_mapM_bit?_iff :
    (∃ bits, values.mapM d.bit? = some bits) ↔ ∀ x ∈ values, x ∈ d.values := by
  have hrange : (∃ bits, List.map d.value bits = values) ↔ ∀ x ∈ values, ∃ b, d.value b = x :=
    Set.ext_iff.1 (Set.range_list_map d.value) values
  simp only [mapM_bit?_eq_some_iff, Vartype.mem_values_iff]
  simpa only [eq_comm] using hrange

theorem ofValues?_eq_none_iff : ofValues? d values = none ↔ ∃ x ∈ values, x ∉ d.values := by
  rw [ofValues?, Option.map_eq_none_iff, Option.eq_none_iff_forall_ne_some, ← not_exists,
    exists_mapM_bit?_iff]
  push Not
  rfl

end Values

section Laws

structure Lawful (s : PackedState) : Prop where
  size_bytes : s.bytes.size = s.len ⌈/⌉ 8
  padding : ∀ (b : Nat) (_ : b < s.bytes.size) (k : Nat), k < 8 → s.len ≤ 8 * b + k →
    s.bytes[b].toNat.testBit k = false
  isSome_get? : ∀ i, (s.get? i).isSome ↔ i < s.len
  set? : ∀ i < s.len, ∀ b, ∃ s', s.set? i b = some s' ∧ s'.len = s.len ∧
    s'.get? i = some b ∧ ∀ j ≠ i, s'.get? j = s.get? j
  flip? : ∀ i < s.len, ∃ s', s.flip? i = some s' ∧ s'.len = s.len ∧
    s'.get? i = (s.get? i).map not ∧ ∀ j ≠ i, s'.get? j = s.get? j
  next_after : ∀ k, (Cursor.after s k).next.1 = s.get? k
  remaining_after : ∀ k, (Cursor.after s k).remaining = s.len - k
  getElem?_bits : ∀ i, s.bits[i]? = s.get? i
  ofBits_bits : ofBits s.bits = s
  ofValues?_values : ∀ d, ofValues? d (s.values d) = some s

theorem Canonical.lawful (h : s.Canonical) : s.Lawful where
  size_bytes := h.fits
  padding b hb k hk hle := by
    have hbit := s.getElem_bytes hb hk
    rw [h.bit_of_le _ hle] at hbit
    exact hbit
  isSome_get? i := by
    rw [h.fits.get?_eq_ite]
    split <;> simp [*]
  set? i hi b := by
    refine ⟨s.assign i b, h.fits.set?_eq hi b, rfl, ?_, fun j hj => ?_⟩
    · rw [h.fits.get?_assign hi, if_pos rfl]
    · rw [h.fits.get?_assign hi, if_neg hj]
  flip? i hi := by
    refine ⟨s.toggle i, h.fits.flip?_eq hi, rfl, ?_, fun j hj => ?_⟩
    · rw [h.fits.get?_toggle hi, if_pos rfl]
    · rw [h.fits.get?_toggle hi, if_neg hj]
  next_after := h.fits.next_after
  remaining_after k := by
    simp only [Cursor.after_eq, Cursor.remaining]
    omega
  getElem?_bits := h.fits.getElem?_bits
  ofBits_bits := h.ofBits_bits
  ofValues?_values := h.ofValues?_values

/-- All states that the operations lead to, from whatever bytes, have a clear padding and are
determined by their bits; lists of bits, and lists of values in the domain, are states. -/
theorem reachable_states_lawful :
    (∀ len ≤ maxLength, (ofLength len).Reachable ∧ (ofLength len).len = len.toNat) ∧
    (∀ s : PackedState, s.Reachable → s.Lawful) ∧
    (∀ s t : PackedState, s.Reachable → t.Reachable →
      (s = t ↔ s.len = t.len ∧ ∀ i < s.len, s.get? i = t.get? i)) ∧
    (∀ l : List Bool, (ofBits l).bits = l) ∧
    (∀ d values, (∀ s, ofValues? d values = some s → s.values d = values) ∧
      (ofValues? d values = none ↔ ∃ x ∈ values, x ∉ d.values)) := by
  refine ⟨fun len hlen => ⟨?_, rfl⟩, fun s hs => hs.canonical.lawful,
    fun s t hs ht => hs.canonical.eq_iff ht.canonical, bits_ofBits,
    fun d values => ⟨fun s => values_of_ofValues?, ofValues?_eq_none_iff⟩⟩
  rw [ofLength_eq_zeros hlen]
  exact .zeros len.toNat

theorem reachable_states_lawful_ones :
    let ones : Generator Unit := ⟨fun g => (0, g), fun n g => (Vector.replicate n 255, g)⟩
    let s := (((@random Unit ones 11 ()).1.toggle 3).assign 10 false)
    let t := ofBits [true, true, true, false, true, true, true, true, true, true, false]
    s.Reachable ∧ t.Reachable ∧ s.Lawful ∧ s.bytes = #[247, 3] ∧ s = t := by
  intro ones s t
  have hs : s.Reachable := .set? (i := 10) (b := false)
    (.flip? (i := 3) (@Reachable.random Unit ones 11 ()) rfl) rfl
  have ht : t.Reachable := .ofBits _
  have hlen : t.len = 11 := (len_ofBits _).trans rfl
  obtain ⟨-, hlawful, heq, -⟩ := reachable_states_lawful
  exact ⟨hs, ht, hlawful s hs, by decide, (heq s t hs ht).2 ⟨hlen.symm, by decide⟩⟩

end Laws

end BinaryQuadratic.PackedState

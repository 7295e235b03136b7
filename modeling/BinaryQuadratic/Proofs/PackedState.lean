import Mathlib.Data.Nat.Bitwise
import BinaryQuadratic.PackedState

/-! What the bits of a packed state are after each operation. States that are built by the
operations have as many bytes as their length needs, so that every variable has its bit, and no bit
set past the last variable, so that the values decide the state. -/

namespace BinaryQuadratic.PackedState

open Randomness

def Fits (s : PackedState) : Prop := s.bytes.size = byteCount s.len

theorem toNat_mask (i : Nat) : (mask i).toNat = 2 ^ (i % 8) := by
  have hlt : 2 ^ (i % 8) < 2 ^ 8 := Nat.pow_lt_pow_right (by decide) (by omega)
  have hk : (i % 8).toUInt8.toNat = i % 8 := by
    rw [Nat.toUInt8_eq, UInt8.toNat_ofNat']
    omega
  rw [mask, UInt8.toNat_shiftLeft, hk, Nat.mod_mod, Nat.shiftLeft_eq, UInt8.toNat_one, Nat.one_mul,
    Nat.mod_eq_of_lt hlt]

theorem getLsbD_mask (i k : Nat) : (mask i).toBitVec.getLsbD k = decide (i % 8 = k) := by
  rw [BitVec.getLsbD, UInt8.toNat_toBitVec, toNat_mask, Nat.testBit_two_pow]

theorem and_mask_ne_zero (x : UInt8) (i : Nat) :
    (x &&& mask i != 0) = x.toBitVec.getLsbD (i % 8) := by
  have h : (x &&& mask i).toNat = (x.toNat.testBit (i % 8)).toNat * 2 ^ (i % 8) := by
    rw [UInt8.toNat_and, toNat_mask, Nat.and_two_pow]
  have hpos : 0 < 2 ^ (i % 8) := Nat.two_pow_pos _
  rw [BitVec.getLsbD, UInt8.toNat_toBitVec, Bool.eq_iff_iff, bne_iff_ne, ne_eq, ← UInt8.toNat_inj,
    h, UInt8.toNat_zero]
  cases x.toNat.testBit (i % 8) <;> simp

theorem bit_eq_getLsbD (s : PackedState) (i : Nat) :
    s.bit i = (s.bytes.getD (i / 8) 0).toBitVec.getLsbD (i % 8) := and_mask_ne_zero _ _

theorem bit_update {s : PackedState} {i : Nat} (h : i / 8 < s.bytes.size) (f : UInt8 → UInt8)
    (j : Nat) :
    (s.update i f).bit j =
      if j / 8 = i / 8 then (f (s.bytes.getD (i / 8) 0)).toBitVec.getLsbD (j % 8) else s.bit j := by
  simp only [bit_eq_getLsbD, update, Array.getD_eq_getD_getElem?, Array.getElem?_modify]
  by_cases hj : j / 8 = i / 8
  · simp [hj, Array.getElem?_eq_getElem h]
  · simp [hj, Ne.symm hj]

theorem bit_toggle {s : PackedState} {i : Nat} (h : i / 8 < s.bytes.size) (j : Nat) :
    (s.toggle i).bit j = if j = i then !s.bit i else s.bit j := by
  rw [toggle, bit_update h]
  simp only [bit_eq_getLsbD, UInt8.toBitVec_xor, BitVec.getLsbD_xor, getLsbD_mask]
  by_cases hij : j = i
  · subst hij
    simp
  · by_cases hd : j / 8 = i / 8
    · have hm : i % 8 ≠ j % 8 := by omega
      simp [hij, hd, hm]
    · simp [hij, hd]

theorem bit_assign {s : PackedState} {i : Nat} (h : i / 8 < s.bytes.size) (b : Bool) (j : Nat) :
    (s.assign i b).bit j = if j = i then b else s.bit j := by
  rw [assign, bit_update h]
  -- two bits of one byte are told apart by their remainders
  by_cases hd : j / 8 = i / 8
  · have hm : i % 8 = j % 8 ↔ j = i := by omega
    have hlt : j % 8 < 8 := by omega
    rw [if_pos hd, bit_eq_getLsbD, hd]
    cases b
    · simp only [Bool.false_eq_true, if_false, UInt8.toBitVec_and, UInt8.toBitVec_not,
        BitVec.getLsbD_and, BitVec.getLsbD_not, getLsbD_mask, hm, hlt]
      by_cases hij : j = i <;> simp [hij]
    · simp only [if_true, UInt8.toBitVec_or, BitVec.getLsbD_or, getLsbD_mask, hm]
      by_cases hij : j = i <;> simp [hij]
  · have hij : j ≠ i := fun hij => hd (by rw [hij])
    simp [hd, hij]

@[simp] theorem bit_zeros (n i : Nat) : (zeros n).bit i = false := by
  rw [bit_eq_getLsbD, zeros, Array.getD_eq_getD_getElem?, Array.getElem?_replicate]
  split <;> simp

section Fits

variable {s : PackedState} {i : Nat}

theorem Fits.div_lt (h : s.Fits) (hi : i < s.len) : i / 8 < s.bytes.size := by
  rw [h, byteCount]
  omega

theorem Fits.holds_eq (h : s.Fits) (i : Nat) : s.holds i = decide (i < s.len) := by
  by_cases hi : i < s.len
  · simp [holds, hi, h.div_lt hi]
  · simp [holds, hi]

theorem Fits.get?_eq (h : s.Fits) (hi : i < s.len) : s.get? i = some (s.bit i) := by
  simp [get?, h.holds_eq, hi]

theorem Fits.flip?_eq (h : s.Fits) (hi : i < s.len) : s.flip? i = some (s.toggle i) := by
  simp [flip?, h.holds_eq, hi]

theorem Fits.update (h : s.Fits) (i : Nat) (f : UInt8 → UInt8) : (s.update i f).Fits := by
  simpa [Fits] using h

theorem Fits.toggle (h : s.Fits) (i : Nat) : (s.toggle i).Fits := h.update i _

theorem Fits.assign (h : s.Fits) (i : Nat) (b : Bool) : (s.assign i b).Fits := h.update i _

theorem fits_zeros (n : Nat) : (zeros n).Fits := by simp [Fits, zeros]

end Fits

def assignFrom (s : PackedState) (k : Nat) (bits : List Bool) : PackedState :=
  (bits.zipIdx k).foldl (fun s (b, i) => s.assign i b) s

@[simp] theorem len_assignFrom (s : PackedState) (k : Nat) (bits : List Bool) :
    (s.assignFrom k bits).len = s.len := by
  induction bits generalizing s k with
  | nil => rfl
  | cons b bits ih => exact ih (s.assign k b) (k + 1)

theorem Fits.assignFrom {s : PackedState} (h : s.Fits) (k : Nat) (bits : List Bool) :
    (s.assignFrom k bits).Fits := by
  induction bits generalizing s k with
  | nil => exact h
  | cons b bits ih => exact ih (h.assign k b) (k + 1)

theorem bit_assignFrom {s : PackedState} (h : s.Fits) (k : Nat) (bits : List Bool)
    (hk : k + bits.length ≤ s.len) (j : Nat) :
    (s.assignFrom k bits).bit j =
      if k ≤ j ∧ j < k + bits.length then bits.getD (j - k) false else s.bit j := by
  induction bits generalizing s k with
  | nil =>
    rw [if_neg (by simp)]
    rfl
  | cons b bits ih =>
    have hlen : k + 1 + bits.length ≤ s.len := by
      rw [List.length_cons] at hk
      omega
    have hi : k / 8 < s.bytes.size := h.div_lt (by omega)
    have step := ih (h.assign k b) (k + 1) hlen
    rw [bit_assign hi] at step
    refine step.trans ?_
    obtain hj | rfl | hj := Nat.lt_trichotomy j k
    · rw [if_neg (by omega), if_neg (by omega), if_neg (by omega)]
    · simp
    · have hsub : j - k = j - (k + 1) + 1 := by omega
      simp only [hsub, List.getD_cons_succ, List.length_cons, show j ≠ k by omega, if_false]
      exact if_congr (by omega) rfl rfl

@[simp] theorem len_ofBits (bits : List Bool) : (ofBits bits).len = bits.length :=
  len_assignFrom (zeros bits.length) 0 bits

theorem fits_ofBits (bits : List Bool) : (ofBits bits).Fits := (fits_zeros _).assignFrom 0 bits

theorem bit_ofBits (bits : List Bool) (i : Nat) : (ofBits bits).bit i = bits.getD i false := by
  refine (bit_assignFrom (fits_zeros bits.length) 0 bits (by simp [zeros]) i).trans ?_
  by_cases hi : i < bits.length
  · simp [hi]
  · simp [hi, List.getD_eq_getElem?_getD]

theorem fits_random {γ : Type} [Generator γ] (n : Nat) (g : γ) : (random n g).1.Fits := by
  simp only [random, Fits, clearPadding]
  split <;> simp

section Canonical

/-- No bit is set that belongs to no variable. -/
structure Canonical (s : PackedState) : Prop where
  fits : s.Fits
  bit_of_le : ∀ i, s.len ≤ i → s.bit i = false

variable {s t : PackedState}

theorem getElem_bytes (s : PackedState) {b : Nat} (hb : b < s.bytes.size) {k : Nat} (hk : k < 8) :
    s.bytes[b].toBitVec.getLsbD k = s.bit (8 * b + k) := by
  have hdiv : (8 * b + k) / 8 = b := by omega
  have hmod : (8 * b + k) % 8 = k := by omega
  rw [bit_eq_getLsbD, hdiv, hmod, Array.getD_eq_getD_getElem?, Array.getElem?_eq_getElem hb,
    Option.getD_some]

theorem eq_of_bit_eq (hs : s.Fits) (ht : t.Fits) (hlen : s.len = t.len)
    (h : ∀ i, s.bit i = t.bit i) : s = t := by
  have hsize : s.bytes.size = t.bytes.size := hs.trans ((congrArg byteCount hlen).trans ht.symm)
  have hbytes : s.bytes = t.bytes := by
    refine Array.ext hsize fun b hb hb' => ?_
    refine UInt8.eq_of_toBitVec_eq (BitVec.eq_of_getLsbD_eq fun k hk => ?_)
    rw [s.getElem_bytes hb hk, t.getElem_bytes hb' hk, h]
  cases s
  cases t
  simp_all

theorem Canonical.eq_of_bits_eq (hs : s.Canonical) (ht : t.Canonical) (h : s.bits = t.bits) :
    s = t := by
  have hlen : s.len = t.len := by
    rw [← length_bits, h, length_bits]
  refine eq_of_bit_eq hs.fits ht.fits hlen fun i => ?_
  by_cases hi : i < s.len
  · have hbit : ∀ r : PackedState, i < r.len → r.bits[i]? = some (r.bit i) := fun r hr => by
      simp [bits, hr]
    exact Option.some.inj ((hbit s hi).symm.trans (h ▸ hbit t (hlen ▸ hi)))
  · rw [hs.bit_of_le i (Nat.le_of_not_lt hi), ht.bit_of_le i (hlen ▸ Nat.le_of_not_lt hi)]

theorem canonical_zeros (n : Nat) : (zeros n).Canonical := ⟨fits_zeros n, fun i _ => bit_zeros n i⟩

theorem Canonical.toggle (h : s.Canonical) {i : Nat} (hi : i < s.len) : (s.toggle i).Canonical := by
  refine ⟨h.fits.toggle i, fun j hj => ?_⟩
  have hj' : s.len ≤ j := hj
  rw [bit_toggle (h.fits.div_lt hi), if_neg (by omega), h.bit_of_le j hj']

theorem Canonical.assign (h : s.Canonical) {i : Nat} (hi : i < s.len) (b : Bool) :
    (s.assign i b).Canonical := by
  refine ⟨h.fits.assign i b, fun j hj => ?_⟩
  have hj' : s.len ≤ j := hj
  rw [bit_assign (h.fits.div_lt hi), if_neg (by omega), h.bit_of_le j hj']

theorem canonical_ofBits (bits : List Bool) : (ofBits bits).Canonical := by
  refine ⟨fits_ofBits bits, fun i hi => ?_⟩
  rw [bit_ofBits, List.getD_eq_default _ _ (by simpa using hi)]

theorem bits_ofBits (l : List Bool) : (ofBits l).bits = l := by
  refine List.ext_getElem (by simp) fun i hi hi' => ?_
  simp [bits, bit_ofBits, hi']

theorem Canonical.ofBits_bits (h : s.Canonical) : ofBits s.bits = s :=
  (canonical_ofBits s.bits).eq_of_bits_eq h (bits_ofBits s.bits)

theorem Canonical.ofValues?_values (h : s.Canonical) (t : Vartype) :
    ofValues? t (s.values t) = some s := by
  have hbits : (t.bit? ∘ t.value) = pure := funext t.bit?_value
  rw [ofValues?, values, List.mapM_map, hbits, List.mapM_pure]
  simpa using h.ofBits_bits

theorem getLsbD_mask_sub_one (n k : Nat) :
    (mask n - 1).toBitVec.getLsbD k = decide (k < n % 8) := by
  have hle : (1 : UInt8) ≤ mask n := by
    rw [UInt8.le_iff_toNat_le, toNat_mask, UInt8.toNat_one]
    exact Nat.one_le_two_pow
  rw [BitVec.getLsbD, UInt8.toNat_toBitVec, UInt8.toNat_sub_of_le _ _ hle, toNat_mask,
    UInt8.toNat_one, Nat.testBit_two_pow_sub_one]

theorem bit_clearPadding {n : Nat} {bytes : Array UInt8} (hsize : bytes.size = byteCount n)
    {i : Nat} (hi : n ≤ i) : (⟨n, clearPadding n bytes⟩ : PackedState).bit i = false := by
  rw [byteCount] at hsize
  rw [bit_eq_getLsbD, Array.getD_eq_getD_getElem?, clearPadding]
  by_cases hbyte : i / 8 < bytes.size
  · -- only the last byte has room for more bits than there are variables
    have hpadding : n % 8 ≠ 0 := by omega
    have hlast : bytes.size - 1 = i / 8 := by omega
    have hoffset : ¬i % 8 < n % 8 := by omega
    have hmask : (1 <<< (n % 8).toUInt8 : UInt8) = mask n := rfl
    rw [if_neg hpadding, Array.getElem?_modify, if_pos hlast, Array.getElem?_eq_getElem hbyte, hmask]
    simp only [Option.map_some, Option.getD_some, UInt8.toBitVec_and,
      BitVec.getLsbD_and, getLsbD_mask_sub_one, hoffset, decide_false, Bool.and_false]
  · have hnone : bytes[i / 8]? = none := Array.getElem?_eq_none (Nat.le_of_not_lt hbyte)
    split
    · simp [hnone]
    · simp [Array.getElem?_modify, hnone]

theorem canonical_random {γ : Type} [Generator γ] (n : Nat) (g : γ) : (random n g).1.Canonical :=
  ⟨fits_random n g, fun _ hi => bit_clearPadding (Vector.size_toArray _) hi⟩

inductive Reachable : PackedState → Prop
  | zeros (n : Nat) : Reachable (.zeros n)
  | ofBits (bits : List Bool) : Reachable (.ofBits bits)
  | ofValues? {t : Vartype} {values : List Int} {s : PackedState} :
    ofValues? t values = some s → Reachable s
  | random {γ : Type} [Generator γ] (n : Nat) (g : γ) : Reachable (random n g).1
  | set? {s s' : PackedState} {i : Nat} {b : Bool} :
    Reachable s → s.set? i b = some s' → Reachable s'
  | flip? {s s' : PackedState} {i : Nat} : Reachable s → s.flip? i = some s' → Reachable s'

theorem Reachable.canonical (h : s.Reachable) : s.Canonical := by
  have hlt : ∀ {s : PackedState} {i : Nat}, s.holds i = true → i < s.len := fun h =>
    of_decide_eq_true (Bool.and_eq_true_iff.1 h).1
  induction h with
  | zeros n => exact canonical_zeros n
  | ofBits bits => exact canonical_ofBits bits
  | ofValues? h =>
    obtain ⟨bits, -, rfl⟩ := Option.map_eq_some_iff.1 h
    exact canonical_ofBits bits
  | random n g => exact canonical_random n g
  | set? _ h ih =>
    obtain ⟨hi, h⟩ := Option.ite_none_right_eq_some.1 h
    exact Option.some.inj h ▸ ih.assign (hlt hi) _
  | flip? _ h ih =>
    obtain ⟨hi, h⟩ := Option.ite_none_right_eq_some.1 h
    exact Option.some.inj h ▸ ih.toggle (hlt hi)

end Canonical

end BinaryQuadratic.PackedState

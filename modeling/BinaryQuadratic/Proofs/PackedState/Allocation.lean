import BinaryQuadratic.Proofs.PackedState.Access

/-! Reading, writing and walking check a position against the length only and take its byte for
granted. A state can bear that if its bytes reach to the last variable. For a length that is a
machine word this holds up to `maxLength`; past it the sum in the byte count wraps around, there are
no bytes at all, and every access leaves them. -/

namespace BinaryQuadratic.PackedState

open Randomness

variable {s s' : PackedState}

section Accesses

/-- A use of a state whose only check is that the position is below the length. -/
inductive Access where
  | get (i : Nat)
  | set (i : Nat) (b : Bool)
  | flip (i : Nat)

namespace Access

def position : Access → Nat
  | get i => i
  | set i _ => i
  | flip i => i

def run? (s : PackedState) : Access → Option PackedState
  | get i => (s.get? i).map fun _ => s
  | set i b => s.set? i b
  | flip i => s.flip? i

theorem isSome_run? (s : PackedState) (a : Access) : (a.run? s).isSome = s.holds a.position := by
  cases a <;> simp only [run?, position, get?, set?, flip?] <;> split <;> simp [*]

theorem shape_of_run? {a : Access} (h : a.run? s = some s') :
    s'.len = s.len ∧ s'.bytes.size = s.bytes.size := by
  cases a with
  | get i =>
    obtain ⟨b, -, rfl⟩ := Option.map_eq_some_iff.1 h
    exact ⟨rfl, rfl⟩
  | set i b =>
    obtain ⟨-, h⟩ := Option.ite_none_right_eq_some.1 h
    exact Option.some.inj h ▸ ⟨rfl, size_bytes_update s i _⟩
  | flip i =>
    obtain ⟨-, h⟩ := Option.ite_none_right_eq_some.1 h
    exact Option.some.inj h ▸ ⟨rfl, size_bytes_update s i _⟩

def runAll? (s : PackedState) (as : List Access) : Option PackedState := as.foldlM run? s

theorem exists_runAll? {as : List Access} (h : ∀ a ∈ as, s.holds a.position) :
    ∃ s', runAll? s as = some s' ∧ s'.len = s.len ∧ s'.bytes.size = s.bytes.size := by
  induction as generalizing s with
  | nil => exact ⟨s, rfl, rfl, rfl⟩
  | cons a as ih =>
    obtain ⟨ha, has⟩ := List.forall_mem_cons.1 h
    obtain ⟨t, ht⟩ := Option.isSome_iff_exists.1 ((isSome_run? s a).trans ha)
    obtain ⟨hlen, hsize⟩ := shape_of_run? ht
    have htail : ∀ b ∈ as, t.holds b.position := fun b hb => by
      rw [holds, hlen, hsize]
      exact has b hb
    obtain ⟨s', hs', hlen', hsize'⟩ := ih htail
    refine ⟨s', ?_, hlen'.trans hlen, hsize'.trans hsize⟩
    rw [runAll?, List.foldlM_cons, ht]
    exact hs'

end Access

theorem covers_iff (s : PackedState) : s.covers ↔ ∀ i < s.len, i / 8 < s.bytes.size := by
  rw [covers, decide_eq_true_iff]
  constructor
  · intro h i hi
    omega
  · intro h
    -- otherwise the position after the last byte is a variable's
    by_contra hlt
    have := h (8 * s.bytes.size) (Nat.lt_of_not_le hlt)
    omega

theorem holds_of_covers (h : s.covers) {i : Nat} (hi : i < s.len) : s.holds i := by
  simp [holds, hi, (covers_iff s).1 h i hi]

/-- Everything that is done with the variables of a state stays inside its bytes: all accesses in a
row, and then all steps of a walk. -/
structure Backed (s : PackedState) : Prop where
  byte : ∀ i < s.len, i / 8 < s.bytes.size
  accesses : ∀ as : List Access, (∀ a ∈ as, a.position < s.len) →
    ∃ s', Access.runAll? s as = some s' ∧ s'.len = s.len ∧
      ∀ k < s.len, s'.holds (Cursor.after s' k).position

theorem backed_iff_covers (s : PackedState) : s.Backed ↔ s.covers := by
  refine ⟨fun h => (covers_iff s).2 h.byte, fun h => ⟨(covers_iff s).1 h, fun as has => ?_⟩⟩
  obtain ⟨s', hs', hlen, hsize⟩ := Access.exists_runAll? fun a ha => holds_of_covers h (has a ha)
  have hcovers : s'.covers := by
    rw [covers, hlen, hsize]
    exact h
  refine ⟨s', hs', hlen, fun k hk => ?_⟩
  rw [← hlen] at hk
  rw [Cursor.after_eq, Nat.min_eq_left hk.le]
  exact holds_of_covers hcovers hk

end Accesses

section Words

variable {len : UInt64}

theorem toNat_maxLength : maxLength.toNat = 2 ^ 64 - 8 := rfl

theorem toNat_add_eight_iff : (len + 8).toNat = len.toNat + 8 ↔ len < maxLength := by
  have hlen : len.toNat < 2 ^ 64 := len.toNat_lt
  rw [UInt64.toNat_add, UInt64.lt_iff_toNat_lt, toNat_maxLength]
  simp only [UInt64.reduceToNat]
  omega

theorem byteCountOfWord_eq_zero (h : maxLength < len) : byteCountOfWord len = 0 := by
  have hlen : len.toNat < 2 ^ 64 := len.toNat_lt
  have hlt : 2 ^ 64 - 8 < len.toNat := UInt64.lt_iff_toNat_lt.1 h
  have hsum : (len + 8 - 1).toNat < 8 := by
    rw [UInt64.toNat_sub, UInt64.toNat_add]
    simp only [UInt64.reduceToNat]
    omega
  rw [byteCountOfWord, ← UInt64.toNat_inj, UInt64.toNat_div]
  exact Nat.div_eq_of_lt hsum

theorem toNat_byteCountOfWord_eq_ite (len : UInt64) :
    (byteCountOfWord len).toNat = if len ≤ maxLength then len.toNat ⌈/⌉ 8 else 0 := by
  split
  next h => exact toNat_byteCountOfWord h
  next h => rw [byteCountOfWord_eq_zero (UInt64.not_le.1 h), UInt64.toNat_zero]

theorem div_lt_byteCountOfWord_iff {i : Nat} (hi : i < len.toNat) :
    i / 8 < (byteCountOfWord len).toNat ↔ len ≤ maxLength := by
  by_cases h : len ≤ maxLength
  · rw [toNat_byteCountOfWord h, byteCount]
    exact iff_of_true (by omega) h
  · rw [byteCountOfWord_eq_zero (UInt64.not_le.1 h), UInt64.toNat_zero]
    exact iff_of_false (Nat.not_lt_zero _) h

theorem le_byteCountOfWord_iff :
    len.toNat ≤ 8 * (byteCountOfWord len).toNat ↔ len ≤ maxLength := by
  obtain hzero | hpos := len.toNat.eq_zero_or_pos
  · refine iff_of_true (by omega) (UInt64.le_iff_toNat_le.2 ?_)
    rw [hzero]
    exact Nat.zero_le _
  · -- there are bits for all variables if the last one has its byte
    rw [← div_lt_byteCountOfWord_iff (Nat.sub_lt hpos Nat.one_pos)]
    omega

theorem backed_iff_le_maxLength (hlen : s.len = len.toNat)
    (hsize : s.bytes.size = (byteCountOfWord len).toNat) : s.Backed ↔ len ≤ maxLength := by
  rw [backed_iff_covers, covers, decide_eq_true_iff, hlen, hsize, le_byteCountOfWord_iff]

theorem size_bytes_ofLength (len : UInt64) :
    (ofLength len).bytes.size = (byteCountOfWord len).toNat := by simp [ofLength]

theorem size_bytes_randomOfLength {γ : Type} [Generator γ] (len : UInt64) (g : γ) :
    (randomOfLength len g).1.bytes.size = (byteCountOfWord len).toNat := by
  simp only [randomOfLength, clearPadding]
  split <;> simp

theorem isSome_run?_ofLength (len : UInt64) (a : Access) :
    (a.run? (ofLength len)).isSome ↔ a.position < len.toNat ∧ len ≤ maxLength := by
  rw [Access.isSome_run?, holds, size_bytes_ofLength, Bool.and_eq_true, decide_eq_true_iff,
    decide_eq_true_iff]
  exact and_congr_right div_lt_byteCountOfWord_iff

/-- States of a word's length have bytes for all of their variables exactly up to the longest one,
at which the sum wraps around and the difference takes it back. The states that are longer have no
bytes, and no access to them stays inside. -/
theorem ofLength_backed_exactly (len : UInt64) :
    ((len + 8).toNat = len.toNat + 8 ↔ len < maxLength) ∧
    (byteCountOfWord len).toNat = (if len ≤ maxLength then len.toNat ⌈/⌉ 8 else 0) ∧
    (len.toNat ≤ 8 * (byteCountOfWord len).toNat ↔ len ≤ maxLength) ∧
    ((ofLength len).Backed ↔ len ≤ maxLength) ∧
    (∀ a : Access, (a.run? (ofLength len)).isSome ↔ a.position < len.toNat ∧ len ≤ maxLength) ∧
    ∀ (γ : Type) [Generator γ] (g : γ), (randomOfLength len g).1.Backed ↔ len ≤ maxLength :=
  ⟨toNat_add_eight_iff, toNat_byteCountOfWord_eq_ite len, le_byteCountOfWord_iff,
    backed_iff_le_maxLength rfl (size_bytes_ofLength len), isSome_run?_ofLength len,
    fun _ _ g => backed_iff_le_maxLength rfl (size_bytes_randomOfLength len g)⟩

theorem ofLength_backed_exactly_longest :
    byteCountOfWord 0xFFFFFFFFFFFFFFF8 = 0x1FFFFFFFFFFFFFFF ∧
    (ofLength 0xFFFFFFFFFFFFFFF8).Backed ∧
    ((Access.flip 0xFFFFFFFFFFFFFFF7).run? (ofLength 0xFFFFFFFFFFFFFFF8)).isSome ∧
    ¬ (ofLength 0xFFFFFFFFFFFFFFF9).Backed := by
  obtain ⟨-, -, -, hbacked, hrun, -⟩ := ofLength_backed_exactly 0xFFFFFFFFFFFFFFF8
  obtain ⟨-, -, -, hlonger, -⟩ := ofLength_backed_exactly 0xFFFFFFFFFFFFFFF9
  exact ⟨by decide, hbacked.2 (by decide), (hrun _).2 ⟨by decide, by decide⟩,
    fun h => absurd (hlonger.1 h) (by decide)⟩

/-- One variable more than the longest state has: there is no byte for the first of them. -/
theorem ofLength_without_bytes :
    let len : UInt64 := 0xFFFFFFFFFFFFFFF9
    let s := ofLength len
    byteCountOfWord len = 0 ∧ ¬ len.toNat ≤ 8 * (byteCountOfWord len).toNat ∧
      0 < s.len ∧ ¬ 0 / 8 < s.bytes.size ∧
      s.get? 0 = none ∧ s.set? 0 true = none ∧ s.flip? 0 = none ∧
      (Cursor.start s).position < s.len ∧ ¬ s.holds (Cursor.start s).position := by
  decide

end Words

end BinaryQuadratic.PackedState

import Mathlib
import BinaryQuadratic.Coefficient.Binary64
import BinaryQuadratic.Proofs.Coefficient.Comparison

/-! Doubles that are numbers are ordered as their words are, with the first bit as a sign. Rounding
keeps two signs: that of a product of positive numbers, and that of the difference of equals. -/

namespace BinaryQuadratic.Coefficient.Binary64

open Float.Model Float.Model.UnpackedFloat

section Places

def Stored : UnpackedFloat → Prop
  | .finite _ m e _ => -1074 ≤ e ∧ e ≤ 971 ∧ m < 2 ^ 53 ∧ (-1074 < e → 2 ^ 52 ≤ m)
  | _ => True

/-- The place of a number among all numbers, with both zeros in the middle. -/
def place : UnpackedFloat → Int
  | .notANumber | .zero _ => 0
  | .finite s m e _ => s.apply ((e + 1074) * 2 ^ 52 + m)
  | .infinity s => s.apply (2047 * 2 ^ 52)

theorem compare_exponent_then_mantissa {m m' : Nat} {e e' : Int}
    (h : -1074 ≤ e ∧ e ≤ 971 ∧ m < 2 ^ 53 ∧ (-1074 < e → 2 ^ 52 ≤ m))
    (h' : -1074 ≤ e' ∧ e' ≤ 971 ∧ m' < 2 ^ 53 ∧ (-1074 < e' → 2 ^ 52 ≤ m')) :
    (compare e e').then (compare m m') =
      compare ((e + 1074) * 2 ^ 52 + m) ((e' + 1074) * 2 ^ 52 + m') := by
  rcases lt_trichotomy e e' with hlt | rfl | hgt
  · -- the larger exponent brings a mantissa with its first bit set
    have hplace : (e + 1074) * 2 ^ 52 + m < (e' + 1074) * 2 ^ 52 + m' := by omega
    rw [compare_lt_iff_lt.2 hlt, compare_lt_iff_lt.2 hplace]
    rfl
  · rw [compare_eq_iff_eq.2 rfl]
    change compare m m' = _
    rcases lt_trichotomy m m' with hlt | rfl | hgt
    · rw [compare_lt_iff_lt.2 hlt, eq_comm, compare_lt_iff_lt]
      omega
    · simp
    · rw [compare_gt_iff_gt.2 hgt, eq_comm, compare_gt_iff_gt]
      omega
  · have hplace : (e' + 1074) * 2 ^ 52 + m' < (e + 1074) * 2 ^ 52 + m := by omega
    rw [compare_gt_iff_gt.2 hgt, compare_gt_iff_gt.2 hplace]
    rfl

theorem compare_finite {s t : Sign} {m m' : Nat} {e e' : Int} {hm : 0 < m} {hm' : 0 < m'}
    (hu : Stored (.finite s m e hm)) (hv : Stored (.finite t m' e' hm')) :
    (UnpackedFloat.finite s m e hm).compare (.finite t m' e' hm') =
      some (compare (place (.finite s m e hm)) (place (.finite t m' e' hm'))) := by
  have hmagnitude := compare_exponent_then_mantissa hu hv
  obtain ⟨he, -⟩ := hu
  obtain ⟨he', -⟩ := hv
  cases s <;> cases t <;> simp only [UnpackedFloat.compare, place, Sign.apply]
  case negative.negative =>
    rw [hmagnitude, Int.compare_swap]
    simp only [compare, compareOfLessAndEq, neg_lt_neg_iff, neg_inj, eq_comm]
  case negative.positive => rw [compare_lt_iff_lt.2 (by omega)]
  case positive.negative => rw [compare_gt_iff_gt.2 (by omega)]
  case positive.positive => rw [hmagnitude]

theorem compare_eq_place {u v : UnpackedFloat} (hu : Stored u) (hv : Stored v)
    (hun : u.isNaN = false) (hvn : v.isNaN = false) :
    u.compare v = some (compare (place u) (place v)) := by
  have below : ∀ {a b : Int}, a < b → some Ordering.lt = some (compare a b) := fun h =>
    congrArg some (compare_lt_iff_lt.2 h).symm
  have above : ∀ {a b : Int}, b < a → some Ordering.gt = some (compare a b) := fun h =>
    congrArg some (compare_gt_iff_gt.2 h).symm
  cases u <;> cases v
  case finite.finite => exact compare_finite hu hv
  case infinity.infinity s t => cases s <;> cases t <;> rfl
  case infinity.zero s t => cases s <;> rfl
  case zero.infinity s t => cases t <;> rfl
  case zero.zero => rfl
  -- a finite number is between the two infinities, and on one side of zero
  case infinity.finite s t m e hm =>
    obtain ⟨he, he', hm', -⟩ := hv
    cases s with
    | negative => exact below (by cases t <;> simp only [place, Sign.apply] <;> omega)
    | positive => exact above (by cases t <;> simp only [place, Sign.apply] <;> omega)
  case finite.infinity s m e hm t =>
    obtain ⟨he, he', hm', -⟩ := hu
    cases t with
    | negative => exact above (by cases s <;> simp only [place, Sign.apply] <;> omega)
    | positive => exact below (by cases s <;> simp only [place, Sign.apply] <;> omega)
  case zero.finite s t m e hm =>
    obtain ⟨he, -⟩ := hv
    cases t with
    | negative => exact above (by simp only [place, Sign.apply]; omega)
    | positive => exact below (by simp only [place, Sign.apply]; omega)
  case finite.zero s m e hm t =>
    obtain ⟨he, -⟩ := hu
    cases s with
    | negative => exact below (by simp only [place, Sign.apply]; omega)
    | positive => exact above (by simp only [place, Sign.apply]; omega)
  all_goals simp [UnpackedFloat.isNaN] at hun hvn

end Places

section Words

def signOf (w : Nat) : Sign := if w < 2 ^ 63 then .positive else .negative

def exponentOf (w : Nat) : Nat := w / 2 ^ 52 % 2 ^ 11

def mantissaOf (w : Nat) : Nat := w % 2 ^ 52

variable (w : BitVec 64)

theorem toNat_unpackMantissa : (@unpackMantissa Format.binary64 w).toNat = mantissaOf w.toNat := by
  simp [unpackMantissa, mantissaOf]

theorem toNat_unpackExponent : (@unpackExponent Format.binary64 w).toNat = exponentOf w.toNat := by
  simp [unpackExponent, exponentOf, Nat.shiftRight_eq_div_pow]

theorem ofBitVec_unpackSign :
    Sign.ofBitVec (@unpackSign Format.binary64 w) = signOf w.toNat := by
  have hw : w.toNat < 2 ^ 64 := w.isLt
  have hsign : (@unpackSign Format.binary64 w).toNat = w.toNat / 2 ^ 63 := by
    simp only [unpackSign, BitVec.toNat_cast, BitVec.extractLsb_toNat, Nat.shiftRight_eq_div_pow]
    omega
  rw [Sign.ofBitVec, signOf]
  refine if_congr ?_ rfl rfl
  rw [← BitVec.toNat_inj, hsign, BitVec.toNat_ofNat]
  omega

omit w in
theorem toNat_one_append (y : BitVec 52) : (1#1 ++ y).toNat = 2 ^ 52 + y.toNat := by
  rw [BitVec.toNat_append, ← Nat.shiftLeft_add_eq_or_of_lt y.isLt]
  rfl

theorem unpack_cases {u : UnpackedFloat} (hu : UnpackedFloat.unpack Format.binary64 w = u) :
    (exponentOf w.toNat = 2047 ∧ mantissaOf w.toNat = 0 ∧ u = .infinity (signOf w.toNat)) ∨
    u = .notANumber ∨
    (exponentOf w.toNat = 0 ∧ mantissaOf w.toNat = 0 ∧ u = .zero (signOf w.toNat)) ∨
    (exponentOf w.toNat = 0 ∧
      ∃ h, u = .finite (signOf w.toNat) (mantissaOf w.toNat) (-1074) h) ∨
    (exponentOf w.toNat ≠ 0 ∧ exponentOf w.toNat < 2047 ∧
      ∃ h, u = .finite (signOf w.toNat) (2 ^ 52 + mantissaOf w.toNat)
        (exponentOf w.toNat - 1075) h) := by
  have hm := toNat_unpackMantissa w
  have hbias : (Format.binary64.exponentBias : Int) = 1023 := rfl
  have hfull : (-1#11 : BitVec 11).toNat = 2047 := rfl
  have hlt : exponentOf w.toNat < 2 ^ 11 := Nat.mod_lt _ (by decide)
  subst hu
  unfold UnpackedFloat.unpack
  simp only [ofBitVec_unpackSign, hm, toNat_unpackExponent, hbias, ← BitVec.toNat_inj]
  split
  · -- a full exponent stands for an infinity or no number
    next hexponent =>
    rw [hfull] at hexponent
    split
    · next hmantissa => exact .inl ⟨hexponent, hmantissa, rfl⟩
    · exact .inr (.inl rfl)
  next hexponent =>
  rw [hfull] at hexponent
  split
  · next hzero =>
    split
    · next hmantissa => exact .inr (.inr (.inl ⟨hzero, hmantissa, rfl⟩))
    · next hmantissa =>
      refine .inr (.inr (.inr (.inl ⟨hzero, Nat.pos_of_ne_zero hmantissa, ?_⟩)))
      simp only [hzero]
      rfl
  · -- any other exponent implies a leading one
    next hzero =>
    have hmantissa : (1#1 ++ @unpackMantissa Format.binary64 w).toNat =
        2 ^ 52 + mantissaOf w.toNat := by rw [toNat_one_append, hm]
    refine .inr (.inr (.inr (.inr ⟨hzero, by omega, by omega, ?_⟩)))
    simp only [hmantissa]
    rfl

theorem stored_unpack : Stored (UnpackedFloat.unpack Format.binary64 w) := by
  generalize hu : UnpackedFloat.unpack Format.binary64 w = u
  have hm : mantissaOf w.toNat < 2 ^ 52 := Nat.mod_lt _ (by decide)
  rcases unpack_cases w hu with ⟨-, -, rfl⟩ | rfl | ⟨-, -, rfl⟩ | ⟨-, _, rfl⟩ | ⟨hne, hlt, _, rfl⟩
  · trivial
  · trivial
  · trivial
  · exact ⟨le_refl _, by omega, by omega, fun h => absurd h (lt_irrefl _)⟩
  · exact ⟨by omega, by omega, by omega, fun _ => by omega⟩

theorem place_unpack (hn : (UnpackedFloat.unpack Format.binary64 w).isNaN = false) :
    place (UnpackedFloat.unpack Format.binary64 w) =
      (signOf w.toNat).apply (w.toNat % 2 ^ 63 : Nat) := by
  generalize hu : UnpackedFloat.unpack Format.binary64 w = u at *
  have hw : w.toNat % 2 ^ 63 = 2 ^ 52 * exponentOf w.toNat + mantissaOf w.toNat := by
    unfold exponentOf mantissaOf
    omega
  rw [hw]
  rcases unpack_cases w hu with ⟨he, hm, rfl⟩ | rfl | ⟨he, hm, rfl⟩ | ⟨he, _, rfl⟩ | ⟨-, -, _, rfl⟩
  · rw [he, hm]
    rfl
  · cases hn
  · rw [he, hm]
    cases signOf w.toNat <;> rfl
  · rw [he]
    simp [place]
  · simp only [place]
    congr 1
    push_cast
    ring

end Words

section Order

variable {a b : Float}

def rank (a : Float) : Int := (signOf a.toBits.toNat).apply (a.toBits.toNat % 2 ^ 63 : Nat)

theorem compare_unpack (a b : Float) : a.toModel.unpack.compare b.toModel.unpack =
    if a.isNaN = false ∧ b.isNaN = false then some (compare (rank a) (rank b)) else none := by
  split
  · next h =>
    obtain ⟨ha, hb⟩ := h
    refine (compare_eq_place (stored_unpack _) (stored_unpack _) ha hb).trans ?_
    rw [place_unpack _ ha, place_unpack _ hb]
    rfl
  · next h =>
    change ¬(a.toModel.unpack.isNaN = false ∧ b.toModel.unpack.isNaN = false) at h
    generalize a.toModel.unpack = u at *
    generalize b.toModel.unpack = v at *
    cases u <;> cases v <;> simp [UnpackedFloat.isNaN, UnpackedFloat.compare] at h ⊢

theorem le_iff : a ≤ b ↔ a.isNaN = false ∧ b.isNaN = false ∧ rank a ≤ rank b := by
  have h : a ≤ b ↔ (a.toModel.unpack.compare b.toModel.unpack).any (·.isLE) = true :=
    decide_eq_true_iff
  rw [h, compare_unpack, ← and_assoc]
  split
  · next hn => rw [Option.any_some, Int.isLE_compare, and_iff_right hn]
  · next hn => exact iff_of_false Bool.false_ne_true fun h => hn h.1

theorem lt_iff : a < b ↔ a.isNaN = false ∧ b.isNaN = false ∧ rank a < rank b := by
  have h : a < b ↔ (a.toModel.unpack.compare b.toModel.unpack == some .lt) = true :=
    decide_eq_true_iff
  rw [h, compare_unpack, ← and_assoc]
  split
  · next hn => rw [Option.some_beq_some, beq_iff_eq, compare_lt_iff_lt, and_iff_right hn]
  · next hn => exact iff_of_false Bool.false_ne_true fun h => hn h.1

theorem beq_iff : (a == b) = true ↔ a.isNaN = false ∧ b.isNaN = false ∧ rank a = rank b := by
  have h : (a == b) = (a.toModel.unpack.compare b.toModel.unpack == some .eq) := rfl
  rw [h, compare_unpack, ← and_assoc]
  split
  · next hn => rw [Option.some_beq_some, beq_iff_eq, compare_eq_iff_eq, and_iff_right hn]
  · next hn => exact iff_of_false Bool.false_ne_true fun h => hn h.1

theorem toNat_orderKey (a : Float) : (orderKey a).toNat =
    if a.toBits.toNat < 2 ^ 63 then a.toBits.toNat + 2 ^ 63 else 2 ^ 64 - 1 - a.toBits.toNat := by
  have hlt : a.toBits.toNat < 2 ^ 64 := a.toBits.toNat_lt
  have hsign : a.toBits < 0x8000000000000000 ↔ a.toBits.toNat < 2 ^ 63 := UInt64.lt_iff_toNat_lt
  rw [orderKey]
  simp only [hsign]
  split
  · next h =>
    rw [UInt64.toNat_or, Nat.or_comm]
    exact (Nat.two_pow_add_eq_or_of_lt h 1).symm.trans (by omega)
  · rw [UInt64.toNat_not]
    rfl

theorem rank_le_of_orderKey_le (h : orderKey a ≤ orderKey b) : rank a ≤ rank b := by
  have ha : a.toBits.toNat < 2 ^ 64 := a.toBits.toNat_lt
  have hb : b.toBits.toNat < 2 ^ 64 := b.toBits.toNat_lt
  rw [UInt64.le_iff_toNat_le, toNat_orderKey, toNat_orderKey] at h
  unfold rank signOf
  split at h <;> split at h <;> simp only [*, if_true, if_false, Sign.apply] <;> omega

theorem isNumber_iff : IsNumber a ↔ a.isNaN = false := by
  rw [IsNumber, beq_iff]
  exact ⟨fun h => h.1, fun h => ⟨h, h, rfl⟩⟩

instance : Comparable Float where
  le_trans a b c hab hbc := by
    rw [le_iff] at hab hbc ⊢
    exact ⟨hab.1, hbc.2.1, hab.2.2.trans hbc.2.2⟩
  le_total a b ha hb := by
    rw [isNumber_iff] at ha hb
    simp only [le_iff, ha, hb, true_and]
    exact Int.le_total _ _
  lt_iff a b := by
    rw [lt_iff, le_iff, le_iff]
    constructor
    · rintro ⟨ha, hb, hlt⟩
      exact ⟨⟨ha, hb, hlt.le⟩, fun h => absurd h.2.2 (not_le.2 hlt)⟩
    · rintro ⟨⟨ha, hb, -⟩, hnot⟩
      exact ⟨ha, hb, not_le.1 fun hle => hnot ⟨hb, ha, hle⟩⟩
  beq_iff a b := by
    rw [beq_iff, le_iff, le_iff]
    constructor
    · rintro ⟨ha, hb, heq⟩
      exact ⟨⟨ha, hb, heq.le⟩, hb, ha, heq.ge⟩
    · rintro ⟨⟨ha, hb, hle⟩, -, -, hge⟩
      exact ⟨ha, hb, le_antisymm hle hge⟩
  le_of_totalLe a b ha hb h := by
    rw [isNumber_iff] at ha hb
    exact le_iff.2 ⟨ha, hb, rank_le_of_orderKey_le (of_decide_eq_true h)⟩

instance : NumbersCompared Float where
  isNumber_of_le _ _ h := ⟨isNumber_iff.2 (le_iff.1 h).1, isNumber_iff.2 (le_iff.1 h).2.1⟩

theorem isNumber_of_isFinite (h : a.isFinite = true) : IsNumber a := by
  rw [isNumber_iff]
  change a.toModel.unpack.isFinite = true at h
  change a.toModel.unpack.isNaN = false
  generalize a.toModel.unpack = u at *
  cases u with
  | notANumber => cases h
  | infinity s => rfl
  | zero s => rfl
  | finite s m e hm => rfl

end Order

section Signs

theorem sub_of_compare_eq {f : Format} {u v : UnpackedFloat} (h : u.compare v = some .eq)
    (hu : u.isFinite = true) : ∃ s, UnpackedFloat.sub f u v = .zero s := by
  cases u with
  | notANumber => cases hu
  | infinity s => cases hu
  | zero s =>
    cases v with
    | notANumber => cases h
    | infinity t => cases t <;> cases h
    | finite t m e hm => cases t <;> cases h
    | zero t => cases s <;> cases t <;> exact ⟨_, rfl⟩
  | finite s m e hm =>
    cases v with
    | notANumber => cases h
    | infinity t => cases s <;> cases t <;> cases h
    | zero t => cases s <;> cases h
    | finite t m' e' hm' =>
      have hsame : s = t ∧ e = e' ∧ m = m' := by
        cases s <;> cases t <;>
          simp [UnpackedFloat.compare, Ordering.then_eq_eq] at h ⊢ <;> exact h
      obtain ⟨rfl, rfl, rfl⟩ := hsame
      refine ⟨.positive, ?_⟩
      simp only [UnpackedFloat.sub, Int.sub_self]
      rfl

theorem sub_nonpos {a b : Float} (ha : a.isFinite = true) (h : (a == b) = true) : a - b ≤ 0 := by
  have hcompare : a.toModel.unpack.compare b.toModel.unpack = some .eq := beq_iff_eq.1 h
  obtain ⟨s, hs⟩ := @sub_of_compare_eq Format.binary64 _ _ hcompare ha
  have hle : (Float.Model.pack (UnpackedFloat.sub Format.binary64 a.toModel.unpack
      b.toModel.unpack)).unpack.le (.zero .positive) = true := by
    rw [hs]
    cases s <;> decide
  exact decide_eq_true hle

inductive Positive : UnpackedFloat → Prop
  | finite (m : Nat) (e : Int) (h : 0 < m) : Positive (.finite .positive m e h)
  | infinity : Positive (.infinity .positive)

inductive Nonnegative : UnpackedFloat → Prop
  | zero : Nonnegative (.zero .positive)
  | finite (m : Nat) (e : Int) (h : 0 < m) : Nonnegative (.finite .positive m e h)
  | infinity : Nonnegative (.infinity .positive)

theorem positive_of_lt {u : UnpackedFloat} (h : (UnpackedFloat.zero .positive).lt u = true) :
    Positive u := by
  cases u with
  | notANumber => cases h
  | zero s => cases h
  | infinity s =>
    cases s with
    | negative => cases h
    | positive => exact .infinity
  | finite s m e hm =>
    cases s with
    | negative => cases h
    | positive => exact .finite m e hm

theorem Nonnegative.le {u : UnpackedFloat} (h : Nonnegative u) :
    (UnpackedFloat.zero .positive).le u = true := by
  cases h <;> rfl

theorem ofBitVec_unpackSign_packComponents (s : Sign) (e : BitVec 11) (m : BitVec 52) :
    Sign.ofBitVec (@unpackSign Format.binary64 (packComponents Format.binary64 s e m)) = s := by
  rw [unpackSign_packComponents]
  cases s <;> rfl

theorem nonnegative_unpack {e : BitVec 11} {m : BitVec 52} (h : e = -1#11 → m = 0#52) :
    Nonnegative (UnpackedFloat.unpack Format.binary64
      (packComponents Format.binary64 .positive e m)) := by
  simp only [UnpackedFloat.unpack, unpackMantissa_packComponents, unpackExponent_packComponents,
    ofBitVec_unpackSign_packComponents]
  split
  · next he =>
    rw [if_pos (h he)]
    exact .infinity
  · split
    · split
      · exact .zero
      · exact .finite _ _ _
    · exact .finite _ _ _

theorem Nonnegative.pack {u : UnpackedFloat} (h : Nonnegative u) :
    Nonnegative (Float.Model.pack u).unpack := by
  change Nonnegative (UnpackedFloat.unpack Format.binary64 (UnpackedFloat.pack Format.binary64 u))
  cases h with
  | zero => exact nonnegative_unpack nofun
  | infinity => exact nonnegative_unpack fun _ => rfl
  | finite m e hm =>
    rw [UnpackedFloat.pack]
    split
    · exact nonnegative_unpack fun _ => rfl
    next hexponent =>
    split
    · refine nonnegative_unpack fun h => ?_
      have hfull := congrArg BitVec.toNat h
      simp at hfull hexponent
      omega
    · exact nonnegative_unpack nofun

theorem nonnegative_round (f : Format) (m : Nat) (e : Int) (a : Accuracy) :
    Nonnegative (roundWithAccuracy f .positive m e a) := by
  unfold roundWithAccuracy
  simp only
  split
  · exact .zero
  · exact .finite _ _ _

theorem nonnegative_mul (f : Format) {u v : UnpackedFloat} (hu : Positive u) (hv : Positive v) :
    Nonnegative (UnpackedFloat.mul f u v) := by
  cases hu <;> cases hv
  case finite.finite => exact nonnegative_round _ _ _ _
  all_goals exact .infinity

theorem mul_nonneg {a b : Float} (ha : 0 < a) (hb : 0 < b) : 0 ≤ a * b := by
  have hu : Positive a.toModel.unpack := positive_of_lt (of_decide_eq_true ha)
  have hv : Positive b.toModel.unpack := positive_of_lt (of_decide_eq_true hb)
  exact decide_eq_true (nonnegative_mul Format.binary64 hu hv).pack.le

end Signs

end BinaryQuadratic.Coefficient.Binary64

import BinaryQuadratic.Proofs.Coefficient.Exact
import BinaryQuadratic.Problem.Stitching

/-! The penalty of a constraint as a function of bits. At most three bits are involved, and the
penalties of three are those of a gate, so that no product of three bits is needed. -/

namespace BinaryQuadratic

open Coefficient

section Configurations

def spelled : List Bool → Nat
  | [] => 0
  | b :: bits => b.toNat + 2 * spelled bits

theorem testBit_spelled (bits : List Bool) (i : Nat) :
    (spelled bits).testBit i = bits.getD i false := by
  induction bits generalizing i with
  | nil => simp [spelled]
  | cons b bits ih =>
    rw [spelled]
    cases i with
    | zero => cases b <;> simp [Nat.testBit_zero]
    | succ i =>
      have hhalf : (b.toNat + 2 * spelled bits) / 2 = spelled bits := by
        have := b.toNat_le
        omega
      rw [Nat.testBit_succ, hhalf, ih, List.getD_cons_succ]

theorem spelled_lt (bits : List Bool) : spelled bits < 2 ^ bits.length := by
  induction bits with
  | nil => exact Nat.one_pos
  | cons b bits ih =>
    have := b.toNat_le
    rw [spelled, List.length_cons, Nat.pow_succ]
    omega

theorem eq_of_testBit_eq_of_lt {n j k : Nat} (hj : j < 2 ^ n) (hk : k < 2 ^ n)
    (h : ∀ i < n, j.testBit i = k.testBit i) : j = k := by
  apply Nat.eq_of_testBit_eq
  intro i
  by_cases hi : i < n
  · exact h i hi
  · have hle : 2 ^ n ≤ 2 ^ i := Nat.pow_le_pow_right Nat.two_pos (Nat.le_of_not_lt hi)
    rw [Nat.testBit_lt_two_pow (Nat.lt_of_lt_of_le hj hle),
      Nat.testBit_lt_two_pow (Nat.lt_of_lt_of_le hk hle)]

theorem configurationOf_spelled (t : Vartype) (bits : List Bool) :
    configurationOf t bits.length (spelled bits) = bits.map t.value := by
  apply List.ext_getElem
  · simp [configurationOf]
  · intro i _ hi
    have hi' : i < bits.length := by simpa using hi
    simp [configurationOf, testBit_spelled, hi']

end Configurations

section Interpolation

variable {V α : Type} [Exact α]

def cubicPart {R : Type} [Ring R] (table : Nat → R) : R :=
  table 7 - table 6 - table 5 - table 3 + table 4 + table 2 + table 1 - table 0

/-- The quadratic function that agrees with a table on all configurations of at most two ones. -/
def interpolant (table : Nat → α) (vs : List V) (x : V → α) : α :=
  table 0 + (vs.zipIdx.map fun p => (table (Nat.pow 2 p.2) - table 0) * x p.1).sum +
    ((pairs vs.zipIdx).map fun p =>
      Model.pairBias table p.1.2 p.2.2 * x p.1.1 * x p.2.1).sum

theorem interpolant_eq {table : Nat → α} {vs : List V} (hlen : vs.length ≤ maxPenaltyArity)
    (hcubic : vs.length = maxPenaltyArity → cubicPart table = 0) (b : V → Bool) :
    interpolant table vs (fun v => if b v then 1 else 0) = table (spelled (vs.map b)) := by
  match vs, hlen, hcubic with
  | [], _, _ => simp [interpolant, spelled, pairs]
  | [u], _, _ => cases hu : b u <;> simp [interpolant, spelled, pairs, hu]
  | [u, v], _, _ =>
    cases hu : b u <;> cases hv : b v <;>
      simp [interpolant, spelled, pairs, Model.pairBias, hu, hv]
    ring
  | [u, v, w], _, hcubic =>
    have h := hcubic rfl
    unfold cubicPart at h
    cases hu : b u <;> cases hv : b v <;> cases hw : b w <;>
      simp [interpolant, spelled, pairs, Model.pairBias, hu, hv, hw] <;> linarith

end Interpolation

theorem Gadget.cubicPart_penalty : ∀ g ∈ Gadget.all, cubicPart g.penalty = 0 := by
  -- two gates, six orders of their variables and eight negations
  decide +kernel

namespace Constraint

variable {V α : Type} [Exact α] {c : Constraint V} {gap : α} {table : Nat → α}

theorem feasible_spelled {bits : List Bool} (h : bits.length = c.arity) :
    c.feasible (spelled bits) = c.isSatisfiedBy (bits.map c.vartype.value) := by
  rw [feasible, ← h, configurationOf_spelled]

/-- A penalty that a quadratic function can have and that tells whether a constraint is kept. -/
structure Separates (c : Constraint V) (gap : α) (table : Nat → α) : Prop where
  arity_le : c.arity ≤ maxPenaltyArity
  quadratic : c.arity = maxPenaltyArity → cubicPart table = 0
  eq_zero : ∀ k < 2 ^ c.arity, c.feasible k = true → table k = 0
  gap_le : ∀ k < 2 ^ c.arity, c.feasible k = false → gap ≤ table k

theorem separates_gadget {g : Gadget} (hg : Gadget.match? c.feasible = some g)
    (harity : c.arity = maxPenaltyArity) (hgap : 0 < gap) :
    c.Separates gap fun k => ((g.penalty k : Int) : α) * gap := by
  have hmem : g ∈ Gadget.all := List.mem_of_find?_eq_some hg
  have hfits : ∀ k < 8, (if c.feasible k then g.penalty k = 0 else 1 ≤ g.penalty k) := by
    have := List.find?_some hg
    simpa [Gadget.fits] using this
  have hpow : 2 ^ c.arity = 8 := by rw [harity]; rfl
  refine ⟨harity.le, fun _ => ?_, fun k hk hfeasible => ?_, fun k hk hfeasible => ?_⟩
  · have hcubic := congrArg (Int.cast : Int → α) (Gadget.cubicPart_penalty g hmem)
    simp only [cubicPart] at hcubic ⊢
    push_cast at hcubic
    linear_combination gap * hcubic
  · have hzero := hfits k (hpow ▸ hk)
    rw [if_pos hfeasible] at hzero
    rw [hzero, Int.cast_zero, zero_mul]
  · have hone := hfits k (hpow ▸ hk)
    rw [if_neg (by simp [hfeasible])] at hone
    have hcast : (1 : α) ≤ ((g.penalty k : Int) : α) := by exact_mod_cast hone
    calc gap = 1 * gap := (one_mul gap).symm
      _ ≤ ((g.penalty k : Int) : α) * gap := mul_le_mul_of_nonneg_right hcast hgap.le

theorem separates_penalty (hgap : 0 < gap) (h : c.penalty gap = .ok table) :
    c.Separates gap table := by
  unfold penalty at h
  split at h
  · cases h
  split at h
  · cases h
  next harity =>
  have hle : c.arity ≤ maxPenaltyArity := not_lt.1 harity
  split at h
  · next hall =>
    obtain rfl := Except.ok.inj h
    refine ⟨hle, fun _ => by simp [cubicPart], fun _ _ _ => rfl, fun k hk hfeasible => ?_⟩
    have : c.feasible k = true := List.all_eq_true.1 hall k (List.mem_range.2 hk)
    rw [hfeasible] at this
    cases this
  split at h
  · next hthree =>
    split at h
    · next g hg =>
      obtain rfl := Except.ok.inj h
      exact separates_gadget hg hthree hgap
    · cases h
  · next hthree =>
    obtain rfl := Except.ok.inj h
    refine ⟨hle, fun h => absurd h hthree, fun k _ hfeasible => ?_, fun k _ hfeasible => ?_⟩
    · simp [hfeasible]
    · simp [hfeasible]

end Constraint

end BinaryQuadratic

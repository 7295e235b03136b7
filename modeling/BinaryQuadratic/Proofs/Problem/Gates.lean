import Mathlib.GroupTheory.Perm.Basic
import Mathlib.Data.Fintype.Perm
import BinaryQuadratic.Proofs.Problem.Penalty

/-! Which sets of configurations of three variables have a penalty of their own: those where one
variable is the conjunction or the disjunction of the other two, up to negations. A match is found
for these and for no others. -/

namespace BinaryQuadratic

section Bits

variable {n : Nat}

theorem testBit_spelled_ofFn (x : Fin n → Bool) (i : Fin n) :
    (spelled (List.ofFn x)).testBit i = x i := by
  rw [testBit_spelled, List.getD_eq_getElem?_getD]
  simp

theorem spelled_ofFn_lt (x : Fin n → Bool) : spelled (List.ofFn x) < 2 ^ n := by
  simpa using spelled_lt (List.ofFn x)

theorem spelled_ofFn_testBit {k : Nat} (hk : k < 2 ^ n) :
    spelled (List.ofFn fun i : Fin n => k.testBit i) = k :=
  eq_of_testBit_eq_of_lt (spelled_ofFn_lt _) hk fun i hi => testBit_spelled_ofFn _ ⟨i, hi⟩

theorem forall_lt_two_pow_iff {P : Nat → Prop} :
    (∀ k < 2 ^ n, P k) ↔ ∀ x : Fin n → Bool, P (spelled (List.ofFn x)) :=
  ⟨fun h x => h _ (spelled_ofFn_lt x), fun h _ hk => spelled_ofFn_testBit hk ▸ h _⟩

end Bits

def Gate.output (x y : Bool) : Gate → Bool
  | and => x && y
  | or => x || y

theorem Gate.penalty_eq_zero_iff (gate : Gate) (x y z : Bool) :
    gate.penalty x.toInt y.toInt z.toInt = 0 ↔ z = gate.output x y := by
  cases gate <;> revert x y z <;> decide

theorem Gate.one_le_penalty_iff (gate : Gate) (x y z : Bool) :
    1 ≤ gate.penalty x.toInt y.toInt z.toInt ↔ ¬z = gate.output x y := by
  cases gate <;> revert x y z <;> decide

def Gate.Relates (gate : Gate) (σ : Equiv.Perm (Fin 3)) (negated x : Fin 3 → Bool) : Prop :=
  (x (σ 2) ^^ negated 2) = gate.output (x (σ 0) ^^ negated 0) (x (σ 1) ^^ negated 1)

namespace Gadget

variable {feasible : Nat → Bool} {g : Gadget}

theorem fits_iff : g.fits feasible = true ↔ ∀ k < 8, (feasible k = true ↔
    (k.testBit g.output ^^ g.negated.testBit 2) =
      g.gate.output (k.testBit g.first ^^ g.negated.testBit 0)
        (k.testBit g.second ^^ g.negated.testBit 1)) := by
  simp only [fits, List.all_eq_true, List.mem_range]
  refine forall₂_congr fun k _ => ?_
  have hzero := g.gate.penalty_eq_zero_iff (k.testBit g.first ^^ g.negated.testBit 0)
    (k.testBit g.second ^^ g.negated.testBit 1) (k.testBit g.output ^^ g.negated.testBit 2)
  have hone := g.gate.one_le_penalty_iff (k.testBit g.first ^^ g.negated.testBit 0)
    (k.testBit g.second ^^ g.negated.testBit 1) (k.testBit g.output ^^ g.negated.testBit 2)
  cases feasible k <;> simp only [penalty, bit, hzero, hone, decide_eq_true_eq,
    Bool.false_eq_true, if_false, if_true, false_iff, true_iff]

theorem mem_all_iff : g ∈ all ↔ (g.first, g.second, g.output) ∈ orders ∧ g.negated < 8 := by
  constructor
  · intro h
    obtain ⟨gate, -, h⟩ := List.mem_flatMap.1 h
    obtain ⟨order, horder, h⟩ := List.mem_flatMap.1 h
    obtain ⟨negated, hnegated, rfl⟩ := List.mem_map.1 h
    exact ⟨horder, List.mem_range.1 hnegated⟩
  · rintro ⟨horder, hnegated⟩
    refine List.mem_flatMap.2 ⟨g.gate, by cases g.gate <;> decide, ?_⟩
    exact List.mem_flatMap.2 ⟨_, horder, List.mem_map.2 ⟨_, List.mem_range.2 hnegated, rfl⟩⟩

theorem mem_orders_iff {o : Nat × Nat × Nat} :
    o ∈ orders ↔ ∃ σ : Equiv.Perm (Fin 3), o = ((σ 0 : Nat), (σ 1 : Nat), (σ 2 : Nat)) := by
  constructor
  · revert o
    decide
  · rintro ⟨σ, rfl⟩
    revert σ
    decide

theorem exists_match?_iff : (∃ g, match? feasible = some g) ↔
    ∃ (gate : Gate) (σ : Equiv.Perm (Fin 3)) (negated : Fin 3 → Bool), ∀ x : Fin 3 → Bool,
      feasible (spelled (List.ofFn x)) = true ↔ gate.Relates σ negated x := by
  constructor
  · rintro ⟨⟨gate, first, second, output, negated⟩, hg⟩
    obtain ⟨horder, -⟩ := mem_all_iff.1 (List.mem_of_find?_eq_some hg)
    obtain ⟨σ, hσ⟩ := mem_orders_iff.1 horder
    simp only [Prod.mk.injEq] at hσ
    obtain ⟨rfl, rfl, rfl⟩ := hσ
    have hsome := List.find?_some hg
    have hfits := fits_iff.1 hsome
    refine ⟨gate, σ, fun i => negated.testBit i, fun x => ?_⟩
    have hx := hfits _ (spelled_ofFn_lt x)
    simp only [testBit_spelled_ofFn] at hx
    exact hx
  · rintro ⟨gate, σ, negated, h⟩
    let g : Gadget := ⟨gate, σ 0, σ 1, σ 2, spelled (List.ofFn negated)⟩
    have hmem : g ∈ all := mem_all_iff.2 ⟨mem_orders_iff.2 ⟨σ, rfl⟩, spelled_ofFn_lt negated⟩
    have hfits : g.fits feasible = true := by
      refine fits_iff.2 ((forall_lt_two_pow_iff (n := 3)).2 fun x => ?_)
      have hnegated := testBit_spelled_ofFn negated
      rw [h x, Gate.Relates, ← hnegated 0, ← hnegated 1, ← hnegated 2]
      simp only [g, testBit_spelled_ofFn x]
      rfl
    exact Option.isSome_iff_exists.1 (List.find?_isSome.2 ⟨g, hmem, hfits⟩)

end Gadget

namespace Constraint

variable {V : Type} {c : Constraint V} {n : Nat}

def keeps (c : Constraint V) (x : Fin n → Bool) : Bool :=
  c.isSatisfiedBy (List.ofFn fun i => c.vartype.value (x i))

theorem feasible_spelled_ofFn (h : c.arity = n) (x : Fin n → Bool) :
    c.feasible (spelled (List.ofFn x)) = c.keeps x := by
  rw [feasible_spelled (by rw [List.length_ofFn, h]), List.map_ofFn]
  rfl

theorem all_feasible_iff (h : c.arity = n) :
    (List.range (Nat.pow 2 c.arity)).all c.feasible = true ↔
      ∀ x : Fin n → Bool, c.keeps x = true := by
  simp only [List.all_eq_true, List.mem_range, h]
  refine forall_lt_two_pow_iff.trans (forall_congr' fun x => ?_)
  rw [feasible_spelled_ofFn h]

/-- The configurations are the graph of a gate: its inputs and its output are the three variables in
some order, each of them possibly negated. -/
def IsGate (c : Constraint V) : Prop :=
  ∃ (gate : Gate) (σ : Equiv.Perm (Fin 3)) (negated : Fin 3 → Bool),
    ∀ x : Fin 3 → Bool, c.keeps x = true ↔ gate.Relates σ negated x

theorem exists_match?_iff_isGate (h : c.arity = 3) :
    (∃ g, Gadget.match? c.feasible = some g) ↔ c.IsGate := by
  simp only [Gadget.exists_match?_iff, feasible_spelled_ofFn h, IsGate]

/-- Why there is no penalty for a constraint. The reasons are looked for in this order. -/
inductive Refused (c : Constraint V) : Unsupported V → Prop
  | noConfiguration : c.configurations = [] → Refused c (.noConfiguration c.name)
  | tooManyVariables : c.configurations ≠ [] → 3 < c.arity →
    Refused c (.tooManyVariables c.name c.arity)
  | noPenalty : c.configurations ≠ [] → c.arity = 3 → (∃ x : Fin 3 → Bool, c.keeps x = false) →
    ¬c.IsGate → Refused c (.noPenalty c.name)

def Unpenalizable (c : Constraint V) : Prop :=
  c.configurations = [] ∨ 3 < c.arity ∨
    c.arity = 3 ∧ (∃ x : Fin 3 → Bool, c.keeps x = false) ∧ ¬c.IsGate

theorem exists_refused_iff : (∃ cause, c.Refused cause) ↔ c.Unpenalizable := by
  constructor
  · rintro ⟨_, h | ⟨-, h⟩ | ⟨-, h3, hx, hgate⟩⟩
    · exact .inl h
    · exact .inr (.inl h)
    · exact .inr (.inr ⟨h3, hx, hgate⟩)
  · intro h
    by_cases hnil : c.configurations = []
    · exact ⟨_, .noConfiguration hnil⟩
    · rcases h with h | h | ⟨h3, hx, hgate⟩
      · exact absurd h hnil
      · exact ⟨_, .tooManyVariables hnil h⟩
      · exact ⟨_, .noPenalty hnil h3 hx hgate⟩

theorem match?_eq_none_iff (h : c.arity = 3) :
    Gadget.match? c.feasible = none ↔ ¬c.IsGate := by
  rw [← exists_match?_iff_isGate h, Option.eq_none_iff_forall_ne_some, not_exists]

theorem not_all_feasible_iff (h : c.arity = 3) :
    ¬(List.range (Nat.pow 2 c.arity)).all c.feasible = true ↔
      ∃ x : Fin 3 → Bool, c.keeps x = false := by
  rw [all_feasible_iff h, not_forall]
  simp only [Bool.not_eq_true]

theorem penalty_eq_error_iff {α : Type} [Coefficient α] (gap : α) {cause : Unsupported V} :
    c.penalty gap = .error cause ↔ c.Refused cause := by
  constructor
  · intro h
    unfold penalty at h
    split at h
    · next hnil =>
      obtain rfl := Except.error.inj h
      exact .noConfiguration (List.isEmpty_iff.1 hnil)
    next hnil =>
    have hne : c.configurations ≠ [] := fun h => hnil (List.isEmpty_iff.2 h)
    split at h
    · next hwide =>
      obtain rfl := Except.error.inj h
      exact .tooManyVariables hne hwide
    split at h
    · cases h
    next hall =>
    split at h
    · next hthree =>
      split at h
      · cases h
      · next hnone =>
        obtain rfl := Except.error.inj h
        exact .noPenalty hne hthree ((not_all_feasible_iff hthree).1 hall)
          ((match?_eq_none_iff hthree).1 hnone)
    · cases h
  · have hnonempty : c.configurations ≠ [] → ¬c.configurations.isEmpty = true := fun hne h =>
      hne (List.isEmpty_iff.1 h)
    -- each reason rules out those that are looked for before it
    rintro (hnil | ⟨hne, hwide⟩ | ⟨hne, hthree, hx, hgate⟩)
    · rw [penalty, if_pos (List.isEmpty_iff.2 hnil)]
    · have hwide' : maxPenaltyArity < c.arity := hwide
      rw [penalty, if_neg (hnonempty hne), if_pos hwide']
    · have hthree' : c.arity = maxPenaltyArity := hthree
      rw [penalty, if_neg (hnonempty hne), if_neg (not_lt.2 hthree'.le),
        if_neg ((not_all_feasible_iff hthree).2 hx), if_pos hthree',
        (match?_eq_none_iff hthree).2 hgate]

end Constraint

end BinaryQuadratic

/-! The two domains of a model's variables. A value is stored as one bit, and the domain decides
which number the bit stands for. -/

namespace BinaryQuadratic

inductive Vartype where
  | binary
  | spin
  deriving DecidableEq, Repr

namespace Vartype

def value : Vartype → Bool → Int
  | _, true => 1
  | .binary, false => 0
  | .spin, false => -1

def bit? : Vartype → Int → Option Bool
  | .binary, 0 => some false
  | .binary, 1 => some true
  | .spin, -1 => some false
  | .spin, 1 => some true
  | _, _ => none

def width : Vartype → Nat
  | .binary => 1
  | .spin => 2

def values (t : Vartype) : List Int := [t.value false, t.value true]

def name : Vartype → String
  | .binary => "BINARY"
  | .spin => "SPIN"

@[simp] theorem bit?_value (t : Vartype) (b : Bool) : t.bit? (t.value b) = some b := by
  cases t <;> cases b <;> rfl

theorem bit?_eq_some_iff {t : Vartype} {x : Int} {b : Bool} :
    t.bit? x = some b ↔ x = t.value b := by
  constructor
  · intro h
    unfold bit? at h
    split at h <;> cases h <;> rfl
  · rintro rfl
    exact t.bit?_value b

theorem mem_values_iff {t : Vartype} {x : Int} : x ∈ t.values ↔ ∃ b, x = t.value b := by
  constructor
  · intro hx
    simp only [values, List.mem_cons, List.not_mem_nil, or_false] at hx
    exact hx.elim (fun h => ⟨false, h⟩) fun h => ⟨true, h⟩
  · rintro ⟨b, rfl⟩
    cases b <;> simp [values]

theorem value_injective (t : Vartype) {b c : Bool} (h : t.value b = t.value c) : b = c := by
  have := congrArg t.bit? h
  simpa using this

end Vartype

end BinaryQuadratic

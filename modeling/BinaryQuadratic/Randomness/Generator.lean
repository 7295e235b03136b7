/-! Deterministic sources of random words and bytes. All that an algorithm may know of a source is
this interface, and that equal seeds give equal sources. -/

namespace BinaryQuadratic.Randomness

class Generator (γ : Type) where
  next : γ → UInt64 × γ
  fill : (n : Nat) → γ → Vector UInt8 n × γ

class Seedable (γ : Type) extends Generator γ where
  ofSeed : UInt64 → γ

def draws {γ β : Type} (step : γ → β × γ) : Nat → γ → List β × γ
  | 0, g => ([], g)
  | n + 1, g =>
    let (b, g) := step g
    let (bs, g) := draws step n g
    (b :: bs, g)

theorem length_draws {γ β : Type} (step : γ → β × γ) (n : Nat) (g : γ) :
    (draws step n g).1.length = n := by
  induction n generalizing g with
  | zero => rfl
  | succ n ih => simp [draws, ih]

theorem draws_add {γ β : Type} (step : γ → β × γ) (m n : Nat) (g : γ) :
    (draws step (m + n) g).1 =
      (draws step m g).1 ++ (draws step n (draws step m g).2).1 := by
  induction m generalizing g with
  | zero => simp [draws]
  | succ m ih => simp [draws, Nat.succ_add, ih]

def advanceSeed (s : UInt64) : UInt64 := s * 6364136223846793005 + 11634580027462260723

def mixSeed (s : UInt64) : UInt32 :=
  let x := (((s >>> 18) ^^^ s) >>> 27).toUInt32
  let turn := (s >>> 59).toUInt32
  (x >>> turn) ||| (x <<< (32 - turn))

def seedWords (n : Nat) (seed : UInt64) : List UInt32 :=
  (draws (fun s => (mixSeed (advanceSeed s), advanceSeed s)) n seed).1

end BinaryQuadratic.Randomness

import BinaryQuadratic.Model.Energy

/-! The outcome of one or several reads that ended in the same state. -/

namespace BinaryQuadratic

structure Solution (α : Type) where
  state : PackedState
  energy : Option α
  occurrences : UInt64
  deriving Repr

namespace Solution

variable {V α : Type}

def ofState (s : PackedState) : Solution α := ⟨s, none, 1⟩

def ofBits (bits : List Bool) : Solution α := ofState (.ofBits bits)

def len (s : Solution α) : Nat := s.state.len

def isEmpty (s : Solution α) : Bool := s.state.isEmpty

def get? (s : Solution α) (i : Nat) : Option Bool := s.state.get? i

def energyIn? [Coefficient α] (s : Solution α) (m : Model V α) : Option α :=
  match s.energy with
  | some e => some e
  | none => m.energyOfState? s.state

def evaluated? [Coefficient α] (s : Solution α) (m : Model V α) : Option (Solution α) :=
  (s.energyIn? m).map fun e => { s with energy := some e }

end Solution

end BinaryQuadratic

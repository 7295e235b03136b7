import BinaryQuadratic.Randomness.Generator
import BinaryQuadratic.Vartype

/-! The state of all variables of a model, eight to a byte. Bits past the last variable are kept
zero, so that states with the same values are equal. -/

namespace BinaryQuadratic

structure PackedState where
  len : Nat
  bytes : Array UInt8
  deriving DecidableEq, Repr

namespace PackedState

def byteCount (len : Nat) : Nat := (len + 7) / 8

/-- The byte count of a length that is a machine word, in the arithmetic of such words. -/
def byteCountOfWord (len : UInt64) : UInt64 := (len + 8 - 1) / 8

def zeros (len : Nat) : PackedState := ⟨len, Array.replicate (byteCount len) 0⟩

def ofLength (len : UInt64) : PackedState :=
  ⟨len.toNat, Array.replicate (byteCountOfWord len).toNat 0⟩

def mask (i : Nat) : UInt8 := 1 <<< (i % 8).toUInt8

def isEmpty (s : PackedState) : Bool := s.len = 0

def holds (s : PackedState) (i : Nat) : Bool := i < s.len && i / 8 < s.bytes.size

def covers (s : PackedState) : Bool := s.len ≤ 8 * s.bytes.size

def bit (s : PackedState) (i : Nat) : Bool := s.bytes.getD (i / 8) 0 &&& mask i != 0

def update (s : PackedState) (i : Nat) (f : UInt8 → UInt8) : PackedState :=
  { s with bytes := s.bytes.modify (i / 8) f }

def assign (s : PackedState) (i : Nat) (b : Bool) : PackedState :=
  s.update i fun byte => if b then byte ||| mask i else byte &&& ~~~mask i

def toggle (s : PackedState) (i : Nat) : PackedState := s.update i (· ^^^ mask i)

def get? (s : PackedState) (i : Nat) : Option Bool := if s.holds i then some (s.bit i) else none

def set? (s : PackedState) (i : Nat) (b : Bool) : Option PackedState :=
  if s.holds i then some (s.assign i b) else none

def flip? (s : PackedState) (i : Nat) : Option PackedState :=
  if s.holds i then some (s.toggle i) else none

def ofBits (bits : List Bool) : PackedState :=
  bits.zipIdx.foldl (fun s (b, i) => s.assign i b) (zeros bits.length)

def ofValues? (t : Vartype) (values : List Int) : Option PackedState :=
  (values.mapM t.bit?).map ofBits

def bits (s : PackedState) : List Bool := (List.range s.len).map s.bit

def values (s : PackedState) (t : Vartype) : List Int := s.bits.map t.value

/-- Clears the bits of the last byte that belong to no variable. -/
def clearPadding (len : Nat) (bytes : Array UInt8) : Array UInt8 :=
  if len % 8 = 0 then bytes
  else bytes.modify (bytes.size - 1) (· &&& ((1 <<< (len % 8).toUInt8) - 1))

def random {γ : Type} [Randomness.Generator γ] (len : Nat) (g : γ) : PackedState × γ :=
  let (bytes, g) := Randomness.Generator.fill (byteCount len) g
  (⟨len, clearPadding len bytes.toArray⟩, g)

def randomOfLength {γ : Type} [Randomness.Generator γ] (len : UInt64) (g : γ) : PackedState × γ :=
  let filled := Randomness.Generator.fill (byteCountOfWord len).toNat g
  (⟨len.toNat, clearPadding len.toNat filled.1.toArray⟩, filled.2)

def text (s : PackedState) : String :=
  String.ofList (s.bits.map fun b => if b then '1' else '0')

@[simp] theorem length_bits (s : PackedState) : s.bits.length = s.len := by simp [bits]

@[simp] theorem length_values (s : PackedState) (t : Vartype) : (s.values t).length = s.len := by
  simp [values]

@[simp] theorem len_update (s : PackedState) (i : Nat) (f : UInt8 → UInt8) :
    (s.update i f).len = s.len := rfl

@[simp] theorem size_bytes_update (s : PackedState) (i : Nat) (f : UInt8 → UInt8) :
    (s.update i f).bytes.size = s.bytes.size := by simp [update]

@[simp] theorem len_assign (s : PackedState) (i : Nat) (b : Bool) :
    (s.assign i b).len = s.len := rfl

@[simp] theorem len_toggle (s : PackedState) (i : Nat) : (s.toggle i).len = s.len := rfl

structure Cursor where
  state : PackedState
  position : Nat

namespace Cursor

def start (s : PackedState) : Cursor := ⟨s, 0⟩

def next (c : Cursor) : Option Bool × Cursor :=
  if c.state.len ≤ c.position then (none, c)
  else (some (c.state.bit c.position), { c with position := c.position + 1 })

def remaining (c : Cursor) : Nat := c.state.len - c.position

end Cursor

end PackedState

end BinaryQuadratic

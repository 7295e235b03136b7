import BinaryQuadratic.Randomness.Generator

/-! A multiplicative congruence on 128 bits whose high half is folded into the output. -/

namespace BinaryQuadratic.Randomness

structure Pcg64 where
  state : BitVec 128
  deriving DecidableEq

namespace Pcg64

def multiplier : BitVec 128 := 0x2360ED051FC65DA44385DF649FCCF645

/-- The highest six bits of the state say how far the folded halves are turned. -/
def output (s : BitVec 128) : UInt64 :=
  let x := UInt64.ofBitVec ((s >>> 64 ^^^ s).setWidth 64)
  let turn := UInt64.ofBitVec ((s >>> 122).setWidth 64)
  (x >>> turn) ||| (x <<< (64 - turn))

def next (g : Pcg64) : UInt64 × Pcg64 :=
  let s := g.state * multiplier
  (output s, ⟨s⟩)

def fill (n : Nat) (g : Pcg64) : Vector UInt8 n × Pcg64 :=
  let (words, g) := draws next ((n + 7) / 8) g
  let words := words.toArray
  (Vector.ofFn fun i =>
    (words.getD (i / 8) 0 >>> (8 * (i.val % 8)).toUInt64).toUInt8, g)

/-- Four seed words, the lowest first; the state of a multiplicative congruence is odd. -/
def ofSeed (seed : UInt64) : Pcg64 :=
  let s := (seedWords 4 seed).foldr
    (fun w (s : BitVec 128) => s <<< 32 ||| w.toBitVec.setWidth 128) 0
  ⟨s ||| 1⟩

instance : Seedable Pcg64 := { next, fill, ofSeed }

end Pcg64

end BinaryQuadratic.Randomness

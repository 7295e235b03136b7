import BinaryQuadratic.Randomness.Generator

/-! The ChaCha stream cipher with twenty rounds, as a source of words: a key, a block counter and
the words of the current block that were not taken yet. -/

namespace BinaryQuadratic.Randomness

structure ChaCha20 where
  key : Vector UInt32 8
  counter : UInt64
  pending : List UInt32
  deriving DecidableEq

namespace ChaCha20

abbrev Block := Vector UInt32 16

def rotateLeft (x n : UInt32) : UInt32 := (x <<< n) ||| (x >>> (32 - n))

def quarterRound (a b c d : Fin 16) (s : Block) : Block :=
  let s := s.set a (s[a] + s[b])
  let s := s.set d (rotateLeft (s[d] ^^^ s[a]) 16)
  let s := s.set c (s[c] + s[d])
  let s := s.set b (rotateLeft (s[b] ^^^ s[c]) 12)
  let s := s.set a (s[a] + s[b])
  let s := s.set d (rotateLeft (s[d] ^^^ s[a]) 8)
  let s := s.set c (s[c] + s[d])
  s.set b (rotateLeft (s[b] ^^^ s[c]) 7)

def doubleRound (s : Block) : Block :=
  s |> quarterRound 0 4 8 12 |> quarterRound 1 5 9 13
    |> quarterRound 2 6 10 14 |> quarterRound 3 7 11 15
    |> quarterRound 0 5 10 15 |> quarterRound 1 6 11 12
    |> quarterRound 2 7 8 13 |> quarterRound 3 4 9 14

def initial (key : Vector UInt32 8) (counter : UInt64) : Block :=
  let constants : Vector UInt32 4 := #v[0x61707865, 0x3320646e, 0x79622d32, 0x6b206574]
  let position : Vector UInt32 4 := #v[counter.toUInt32, (counter >>> 32).toUInt32, 0, 0]
  constants ++ key ++ position

def block (key : Vector UInt32 8) (counter : UInt64) : Block :=
  let s := initial key counter
  s.zipWith (· + ·) (Nat.repeat doubleRound 10 s)

def word (g : ChaCha20) : UInt32 × ChaCha20 :=
  match g.pending with
  | w :: rest => (w, { g with pending := rest })
  | [] =>
    let b := block g.key g.counter
    (b[0], { g with counter := g.counter + 1, pending := b.toList.tail })

def next (g : ChaCha20) : UInt64 × ChaCha20 :=
  let (low, g) := g.word
  let (high, g) := g.word
  (low.toUInt64 ||| (high.toUInt64 <<< 32), g)

/-- Whole words are taken; what the last one has too much is dropped. -/
def fill (n : Nat) (g : ChaCha20) : Vector UInt8 n × ChaCha20 :=
  let (words, g) := draws word ((n + 3) / 4) g
  let words := words.toArray
  (Vector.ofFn fun i =>
    (words.getD (i / 4) 0 >>> (8 * (i.val % 4)).toUInt32).toUInt8, g)

def ofSeed (seed : UInt64) : ChaCha20 :=
  let words := (seedWords 8 seed).toArray
  ⟨Vector.ofFn fun i => words.getD i 0, 0, []⟩

instance : Seedable ChaCha20 := { next, fill, ofSeed }

end ChaCha20

end BinaryQuadratic.Randomness

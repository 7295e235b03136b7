import BinaryQuadratic.Model.Basic

/-! The same energies over the other domain. A spin `s` and a bit `x` in the same state satisfy
`x = (s + 1) / 2`. -/

namespace BinaryQuadratic.Model

variable {V α : Type} [Coefficient α]

open Coefficient

def couplingSums (m : Model V α) : List α := m.adjacency.map fun row => sum row.values

/-- Replaces all biases: linear ones by `f` of themselves and their coupling sum, quadratic ones by
a multiple. -/
def rebias (m : Model V α) (t : Vartype) (f : α → α → α) (factor offset : α) : Model V α where
  vartype := t
  linear := m.linear.zipWith f m.couplingSums
  adjacency := m.adjacency.map (OrderedMap.map (· * factor))
  offset := offset

def toSpin (m : Model V α) : Model V α :=
  let offset := m.biases.foldl (fun c a => c + a / ofNat 2) m.offset
  let offset := m.interactions.foldl (fun c e => c + e.2.2 / ofNat 4) offset
  m.rebias .spin (fun a coupled => a / ofNat 2 + coupled / ofNat 4) (ofNat 1 / ofNat 4) offset

def toBinary (m : Model V α) : Model V α :=
  let offset := m.biases.foldl (fun c h => c - h) m.offset
  let offset := m.interactions.foldl (fun c e => c + e.2.2) offset
  m.rebias .binary (fun h coupled => ofNat 2 * h - ofNat 2 * coupled) (ofNat 4) offset

def toVartype (m : Model V α) (t : Vartype) : Model V α :=
  match m.vartype, t with
  | .binary, .spin => m.toSpin
  | .spin, .binary => m.toBinary
  | .binary, .binary | .spin, .spin => m

@[simp] theorem toVartype_vartype (m : Model V α) : m.toVartype m.vartype = m := by
  unfold toVartype
  split <;> simp_all

def toQubo (m : Model V α) : List (V × V × α) × α :=
  let m := m.toVartype .binary
  (m.linear.entries.map (fun (v, b) => (v, v, b)) ++ m.quadraticTerms, m.offset)

def toIsing (m : Model V α) : List (V × α) × List (V × V × α) × α :=
  let m := m.toVartype .spin
  (m.linear.entries, m.quadraticTerms, m.offset)

end BinaryQuadratic.Model

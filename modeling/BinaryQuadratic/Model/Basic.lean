import BinaryQuadratic.Coefficient
import BinaryQuadratic.Model.Error
import BinaryQuadratic.OrderedMap

/-! A model is a quadratic polynomial over variables of one domain: an offset, a linear bias for
each variable and a bias for each interacting pair. A variable is addressed by its label or by its
position in the order of first mention. -/

namespace BinaryQuadratic

structure Model (V α : Type) where
  vartype : Vartype
  linear : OrderedMap V α
  /-- For each variable the positions that it interacts with. A pair is stored at both ends. -/
  adjacency : List (OrderedMap Nat α)
  offset : α

namespace Model

variable {V α : Type}

section Views

def numVariables (m : Model V α) : Nat := m.linear.size

def numInteractions (m : Model V α) : Nat := m.adjacency.foldr (fun row n => row.size + n) 0 / 2

def isEmpty (m : Model V α) : Bool := m.linear.entries.isEmpty

def labels (m : Model V α) : List V := m.linear.keys

def biases (m : Model V α) : List α := m.linear.values

def labelAt? (m : Model V α) (i : Nat) : Option V := m.linear.keyAt? i

def neighborhood? (m : Model V α) (i : Nat) : Option (List (Nat × α)) :=
  m.adjacency[i]?.map OrderedMap.entries

def interactionsFrom : Nat → List (OrderedMap Nat α) → List (Nat × Nat × α)
  | _, [] => []
  | i, row :: rows =>
    (row.entries.filter fun e => i < e.1).map (fun e => (i, e.1, e.2)) ++
      interactionsFrom (i + 1) rows

def interactions (m : Model V α) : List (Nat × Nat × α) := interactionsFrom 0 m.adjacency

def quadraticTerms (m : Model V α) : List (V × V × α) :=
  m.interactions.filterMap fun (i, j, b) => do
    pure (← m.labelAt? i, ← m.labelAt? j, b)

variable [DecidableEq V]

def indexOf? (m : Model V α) (v : V) : Option Nat := m.linear.indexOf? v

/-- The position of a variable; for a new one the position it would get. -/
def position (m : Model V α) (v : V) : Nat := (m.indexOf? v).getD m.numVariables

def linear? (m : Model V α) (v : V) : Option α := m.linear.find? v

def quadratic? (m : Model V α) (u v : V) : Option α := do
  let i ← m.indexOf? u
  let j ← m.indexOf? v
  (← m.adjacency[i]?).find? j

def degree? (m : Model V α) (v : V) : Option Nat := do
  let i ← m.indexOf? v
  pure (← m.adjacency[i]?).size

end Views

section Construction

variable [Coefficient α]

def empty (t : Vartype) : Model V α := ⟨t, ∅, [], 0⟩

def accumulate {κ : Type} [DecidableEq κ] (m : OrderedMap κ α) (k : κ) (b : α) : OrderedMap κ α :=
  m.adjust k 0 (· + b)

def addCoupling (m : Model V α) (i j : Nat) (b : α) : Model V α :=
  { m with
    adjacency := (m.adjacency.modify i (accumulate · j b)).modify j (accumulate · i b) }

def addOffset (m : Model V α) (c : α) : Model V α := { m with offset := m.offset + c }

def scale (m : Model V α) (k : α) : Model V α :=
  { m with
    linear := m.linear.map (· * k)
    adjacency := m.adjacency.map (OrderedMap.map (· * k))
    offset := m.offset * k }

variable [DecidableEq V]

def addVariable (m : Model V α) (v : V) (b : α) : Model V α :=
  { m with
    linear := accumulate m.linear v b
    adjacency :=
      if m.position v = m.adjacency.length then m.adjacency ++ [∅] else m.adjacency }

def addVariables (m : Model V α) (l : List (V × α)) : Model V α :=
  l.foldl (fun m (v, b) => m.addVariable v b) m

def couple (m : Model V α) (u v : V) (b : α) : Model V α :=
  let m := (m.addVariable u 0).addVariable v 0
  m.addCoupling (m.position u) (m.position v) b

def addInteraction (m : Model V α) (u v : V) (b : α) : Except (ModelError V) (Model V α) :=
  if u = v then .error (.selfInteraction u) else .ok (m.couple u v b)

def addInteractions (m : Model V α) : List (V × V × α) → Model V α × Option (ModelError V)
  | [] => (m, none)
  | (u, v, b) :: rest =>
    match m.addInteraction u v b with
    | .ok m => m.addInteractions rest
    | .error e => (m, some e)

/-- A diagonal entry is a linear bias, since a bit equals its square. -/
def addQuboEntry (m : Model V α) (u v : V) (b : α) : Model V α :=
  if u = v then m.addVariable u b else m.couple u v b

def ofQubo (q : List (V × V × α)) : Model V α :=
  q.foldl (fun m (u, v, b) => m.addQuboEntry u v b) (empty .binary)

def ofIsing (h : List (V × α)) (j : List (V × V × α)) : Except (ModelError V) (Model V α) :=
  match ((empty .spin).addVariables h).addInteractions j with
  | (m, none) => .ok m
  | (_, some e) => .error e

end Construction

def maxAbsBias [Coefficient α] (m : Model V α) : α :=
  (m.biases ++ m.adjacency.flatMap OrderedMap.values).foldl
    (fun a b => Coefficient.maxNum (Coefficient.magnitude b) a) 0

end Model

end BinaryQuadratic

import BinaryQuadratic.Problem.Error
import BinaryQuadratic.SampleSet.Basic

/-! Closed tours through cities with given distances, and their encoding: the variable
`⟨city, slot⟩` is one where the city is visited at that slot. -/

namespace BinaryQuadratic.Tour

open Coefficient

structure Cell where
  city : Nat
  slot : Nat
  deriving DecidableEq, Repr

instance : Label Cell where
  plain c := "x_" ++ toString c.city ++ "_" ++ toString c.slot
  marked c := "TspVar \x7b city: " ++ toString c.city ++ ", slot: " ++ toString c.slot ++ " \x7d"

abbrev Distances (α : Type) := List (List α)

variable {α : Type} [Coefficient α]

def rowFault? (n i : Nat) (row : List α) : Option DistanceFault :=
  if row.length ≠ n then some (.notSquare i row.length n)
  else (row.findIdx? fun d => !isFinite d).map fun j => .notFinite i j

def validate (d : Distances α) : Except DistanceFault Unit :=
  if d.isEmpty then .error .empty
  else
    match d.zipIdx.findSome? fun (row, i) => rowFault? d.length i row with
    | some fault => .error fault
    | none => .ok ()

/-- The largest distance times the number of cities; one if no distance is positive. -/
def defaultPenalty (d : Distances α) : α :=
  let p := d.flatten.foldl maxNum 0 * ofNat d.length
  if 0 < p then p else ofNat 1

def distance? (d : Distances α) (start stop : Nat) : Option α := do
  (← d[start]?)[stop]?

/-- The steps of a closed tour; the last one leads back to the first city. -/
def legs (tour : List Nat) : List (Nat × Nat) := tour.zip (tour.drop 1 ++ tour.take 1)

def tourDistance? (d : Distances α) (tour : List Nat) : Option α :=
  ((legs tour).mapM fun (start, stop) => distance? d start stop).map sum

def cityAt? (sample : Assignment Cell) (n slot : Nat) : Option Nat :=
  match (List.range n).filter fun city => sample ⟨city, slot⟩ = some 1 with
  | [city] => some city
  | _ => none

/-- Goes on through further slots, up to one that holds no single city or a city visited before. -/
def visitSlots? (sample : Assignment Cell) (n : Nat) : List Nat → List Nat → Option (List Nat)
  | [], tour => some tour
  | slot :: rest, tour =>
    match cityAt? sample n slot with
    | some city => if city ∈ tour then none else visitSlots? sample n rest (tour ++ [city])
    | none => none

def decode? (sample : Assignment Cell) (n : Nat) : Option (List Nat) :=
  visitSlots? sample n (List.range n) []

def shorter (best : Option (List Nat × α)) (tour : List Nat × α) : Option (List Nat × α) :=
  match best with
  | some b => if b.2 ≤ tour.2 then some b else some tour
  | none => some tour

def bestFrom? (d : Distances α) :
    List (List Nat) → Option (List Nat × α) → Option (Option (List Nat × α))
  | [], best => some best
  | tour :: rest, best =>
    match tourDistance? d tour with
    | some x => bestFrom? d rest (shorter best (tour, x))
    | none => none

/-- The shortest tour among the records of a sample set that are one. The outer option is empty if
a distance is missing. -/
def best? (s : SampleSet Cell α) (d : Distances α) : Option (Option (List Nat × α)) :=
  bestFrom? d (s.records.filterMap fun r => decode? r.sample.assignment d.length) none

end BinaryQuadratic.Tour

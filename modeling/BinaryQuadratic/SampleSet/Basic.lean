import BinaryQuadratic.SampleSet.Solution

/-! Samples in ascending order of energy. Reads that ended in the same state are one record, and
records of equal energy stay in the order in which they were first seen. -/

namespace BinaryQuadratic

abbrev Sample (V : Type) := OrderedMap V Int

def Sample.assignment {V : Type} [DecidableEq V] (s : Sample V) : Assignment V := s.find?

structure Record (V α : Type) where
  sample : Sample V
  energy : α
  occurrences : UInt64

structure SampleSet (V α : Type) where
  vartype : Vartype
  records : List (Record V α)

namespace SampleSet

variable {V α : Type}

def len (s : SampleSet V α) : Nat := s.records.length

def isEmpty (s : SampleSet V α) : Bool := s.records.isEmpty

def get? (s : SampleSet V α) (i : Nat) : Option (Record V α) := s.records[i]?

def first? (s : SampleSet V α) : Option (Record V α) := s.records.head?

def numReads (s : SampleSet V α) : UInt64 :=
  s.records.foldl (fun n r => n + r.occurrences) 0

def truncate (s : SampleSet V α) (n : Nat) : SampleSet V α :=
  { s with records := s.records.take n }

/-- The value that stands for the same bit in the other domain. A value outside of the old domain
counts as the upper one if it is positive. -/
def reexpress (old new : Vartype) (x : Int) : Int := new.value ((old.bit? x).getD (0 < x))

/-- The same states written in another domain; their energies are those of the converted model. -/
def changeVartype (s : SampleSet V α) (t : Vartype) : SampleSet V α :=
  if t = s.vartype then s
  else
    { vartype := t
      records := s.records.map fun r =>
        { r with sample := r.sample.map (reexpress s.vartype t) } }

section Energies

variable [Coefficient α]

def lowest (s : SampleSet V α) : List (Record V α) :=
  match s.records with
  | [] => []
  | r :: _ => s.records.takeWhile fun x => x.energy == r.energy

def sortByEnergy (rs : List (Record V α)) : List (Record V α) :=
  rs.mergeSort fun a b => Coefficient.totalLe a.energy b.energy

def ofRecords (t : Vartype) (rs : List (Record V α)) : SampleSet V α := ⟨t, sortByEnergy rs⟩

def tally (seen : OrderedMap PackedState (α × UInt64)) (s : Solution α) (e : α) :
    OrderedMap PackedState (α × UInt64) :=
  seen.adjust s.state (e, 0) fun (e, n) => (e, n + s.occurrences)

/-- The distinct states in the order of first sight, with their energies and occurrences. -/
def tallyAll? (m : Model V α) :
    List (Solution α) → OrderedMap PackedState (α × UInt64) →
      Option (OrderedMap PackedState (α × UInt64))
  | [], seen => some seen
  | s :: rest, seen =>
    match s.energyIn? m with
    | some e => tallyAll? m rest (tally seen s e)
    | none => none

def sampleOf (m : Model V α) (s : PackedState) : Sample V :=
  m.linear.zipWith (fun _ x => x) (s.values m.vartype)

def ofSolutions? (m : Model V α) (solutions : List (Solution α)) : Option (SampleSet V α) :=
  (tallyAll? m solutions ∅).map fun seen =>
    ofRecords m.vartype (seen.entries.map fun (s, e, n) => ⟨sampleOf m s, e, n⟩)

end Energies

end SampleSet

end BinaryQuadratic

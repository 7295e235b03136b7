import BinaryQuadratic.OrderedMap
import BinaryQuadratic.Problem.Error

/-! The size of the maximum cut of a small graph, found by trying all partitions. -/

namespace BinaryQuadratic.Search

variable {V : Type} [DecidableEq V]

def nodes (edges : List (V × V)) : OrderedSet V :=
  OrderedSet.addAll ∅ (edges.flatMap fun e => [e.1, e.2])

def numberedEdges (edges : List (V × V)) : List (Nat × Nat) :=
  let ns := nodes edges
  edges.filterMap fun e => do
    pure (← ns.indexOf? e.1, ← ns.indexOf? e.2)

/-- The number of edges cut by the partition that the binary digits of `k` spell. -/
def cutOf (ends : List (Nat × Nat)) (k : Nat) : Nat :=
  ends.countP fun e => k.testBit e.1 != k.testBit e.2

def maxCut (edges : List (V × V)) : Except SearchFault Nat :=
  let n := (nodes edges).size
  if maxEnumeratedVariables < n then .error (.partitions n)
  else
    let ends := numberedEdges edges
    .ok ((List.range (Nat.pow 2 n)).foldl (fun best k => max best (cutOf ends k)) 0)

end BinaryQuadratic.Search

import BinaryQuadratic.Model.Basic

/-! How a model came to be: a start, and the operations that were called on it one after the other.
An operation that fails keeps what it did before it failed. -/

namespace BinaryQuadratic

namespace History

inductive Start (V α : Type) where
  | empty (t : Vartype)
  | qubo (q : List (V × V × α))
  | ising (h : List (V × α)) (j : List (V × V × α))

inductive Operation (V α : Type) where
  | addVariable (v : V) (b : α)
  | addVariables (l : List (V × α))
  | addInteraction (u v : V) (b : α)
  | addInteractions (l : List (V × V × α))
  | addOffset (c : α)
  | scale (k : α)

variable {V α : Type}

def Start.vartype : Start V α → Vartype
  | empty t => t
  | qubo _ => .binary
  | ising _ _ => .spin

variable [DecidableEq V]

def accepted (l : List (V × V × α)) : List (V × V × α) := l.takeWhile fun e => e.1 ≠ e.2.1

def ends (l : List (V × V × α)) : List V := l.flatMap fun e => [e.1, e.2.1]

def Start.mentions : Start V α → List V
  | empty _ => []
  | qubo q => ends q
  | ising h j => h.map Prod.fst ++ ends j

def Operation.mentions : Operation V α → List V
  | addVariable v _ => [v]
  | addVariables l => l.map Prod.fst
  | addInteraction u v _ => if u = v then [] else [u, v]
  | addInteractions l => ends (accepted l)
  | addOffset _ | scale _ => []

variable [Coefficient α]

def Start.model? : Start V α → Except (ModelError V) (Model V α)
  | empty t => .ok (.empty t)
  | qubo q => .ok (.ofQubo q)
  | ising h j => Model.ofIsing h j

def Operation.apply (m : Model V α) : Operation V α → Model V α × Option (ModelError V)
  | addVariable v b => (m.addVariable v b, none)
  | addVariables l => (m.addVariables l, none)
  | addInteraction u v b =>
    match m.addInteraction u v b with
    | .ok m => (m, none)
    | .error e => (m, some e)
  | addInteractions l => m.addInteractions l
  | addOffset c => (m.addOffset c, none)
  | scale k => (m.scale k, none)

def run (ops : List (Operation V α)) (m : Model V α) : Model V α :=
  ops.foldl (fun m o => (o.apply m).1) m

end History

structure History (V α : Type) where
  start : History.Start V α
  operations : List (History.Operation V α)

namespace History

variable {V α : Type} [DecidableEq V]

def mentions (h : History V α) : List V :=
  h.start.mentions ++ h.operations.flatMap Operation.mentions

def model? [Coefficient α] (h : History V α) : Except (ModelError V) (Model V α) :=
  h.start.model?.map (run h.operations)

end History

end BinaryQuadratic

import BinaryQuadratic.Model.Energy
import BinaryQuadratic.Problem.Error

/-! A constraint lists the configurations that its variables may take, and a constraint problem
asks for a sample that satisfies several of them. -/

namespace BinaryQuadratic

def dropRepeats {β : Type} [DecidableEq β] : List β → List β
  | a :: b :: rest => if a = b then dropRepeats (b :: rest) else a :: dropRepeats (b :: rest)
  | l => l

@[simp] theorem mem_dropRepeats {β : Type} [DecidableEq β] {x : β} {l : List β} :
    x ∈ dropRepeats l ↔ x ∈ l := by
  fun_induction dropRepeats l <;> simp_all

def lexLe : List Int → List Int → Bool
  | [], _ => true
  | _ :: _, [] => false
  | a :: as, b :: bs => a < b || (a == b && lexLe as bs)

def sortedDistinct (l : List (List Int)) : List (List Int) := dropRepeats (l.mergeSort lexLe)

@[simp] theorem mem_sortedDistinct {c : List Int} {l : List (List Int)} :
    c ∈ sortedDistinct l ↔ c ∈ l := by
  simp [sortedDistinct]

def configurationOf (t : Vartype) (n k : Nat) : List Int :=
  (List.range n).map fun i => t.value (k.testBit i)

structure Constraint (V : Type) where
  label : Option String
  vartype : Vartype
  scope : List V
  configurations : List (List Int)
  distinct : scope.Nodup
  length_eq : ∀ c ∈ configurations, c.length = scope.length
  inDomain : ∀ c ∈ configurations, ∀ x ∈ c, (vartype.bit? x).isSome

namespace Constraint

variable {V : Type}

def maxEnumeratedArity : Nat := 16

def arity (c : Constraint V) : Nat := c.scope.length

def name (c : Constraint V) : ConstraintName V :=
  match c.label with
  | some s => .label s
  | none => .scope c.scope

def withLabel (c : Constraint V) (s : String) : Constraint V := { c with label := some s }

def fault? (t : Vartype) (n : Nat) (c : List Int) : Option (ConstraintFault V) :=
  if c.length ≠ n then some (.wrongLength c n)
  else if c.any fun x => (t.bit? x).isNone then some (.outsideDomain c t)
  else none

theorem fault?_eq_none_iff {t : Vartype} {n : Nat} {c : List Int} :
    fault? (V := V) t n c = none ↔ c.length = n ∧ ∀ x ∈ c, (t.bit? x).isSome := by
  unfold fault?
  by_cases h : c.length = n <;> simp [h, Option.isSome_iff_ne_none]

def ofConfigurations [DecidableEq V] (scope : List V) (t : Vartype)
    (configurations : List (List Int)) : Except (ConstraintFault V) (Constraint V) :=
  if scope = [] then .error .noVariables
  else if hd : scope.Nodup then
    match hf : configurations.findSome? (fault? t scope.length) with
    | some fault => .error fault
    | none =>
      have h : ∀ c ∈ configurations, c.length = scope.length ∧
          ∀ x ∈ c, (t.bit? x).isSome := fun c hc =>
        fault?_eq_none_iff.1 (List.findSome?_eq_none_iff.1 hf c hc)
      .ok
        { label := none
          vartype := t
          scope := scope
          configurations := sortedDistinct configurations
          distinct := hd
          length_eq := fun c hc => (h c (mem_sortedDistinct.1 hc)).1
          inDomain := fun c hc => (h c (mem_sortedDistinct.1 hc)).2 }
  else .error (.repeatedVariables scope)

def ofPredicate [DecidableEq V] (scope : List V) (t : Vartype) (f : List Int → Bool) :
    Except (ConstraintFault V) (Constraint V) :=
  let n := scope.length
  if maxEnumeratedArity < n then .error (.tooManyVariables n)
  else ofConfigurations scope t (((List.range (Nat.pow 2 n)).map (configurationOf t n)).filter f)

def isSatisfiedBy (c : Constraint V) (values : List Int) : Bool := c.configurations.contains values

def check (c : Constraint V) (sample : Assignment V) : Except (ModelError V) Bool := do
  pure (c.isSatisfiedBy (← c.scope.mapM (valueOf sample)))

def feasible (c : Constraint V) (k : Nat) : Bool :=
  c.isSatisfiedBy (configurationOf c.vartype c.arity k)

end Constraint

structure ConstraintProblem (V : Type) where
  vartype : Vartype
  labels : OrderedSet V
  constraints : List (Constraint V)

namespace ConstraintProblem

variable {V : Type}

def empty (t : Vartype) : ConstraintProblem V := ⟨t, ∅, []⟩

section Construction

variable [DecidableEq V]

def addVariable (p : ConstraintProblem V) (v : V) : ConstraintProblem V :=
  { p with labels := OrderedSet.add p.labels v }

def addConstraint (p : ConstraintProblem V) (c : Constraint V) :
    Except (ConstraintFault V) (ConstraintProblem V) :=
  if c.vartype = p.vartype then
    .ok { p with
      labels := OrderedSet.addAll p.labels c.scope
      constraints := p.constraints ++ [c] }
  else .error (.otherDomain c.name c.vartype p.vartype)

end Construction

def violated (sample : Assignment V) : List (Constraint V) →
    Except (ModelError V) (List (Constraint V))
  | [] => .ok []
  | c :: rest => do
    let satisfied ← c.check sample
    let cs ← violated sample rest
    pure (if satisfied then cs else c :: cs)

def unsatisfied (p : ConstraintProblem V) (sample : Assignment V) :
    Except (ModelError V) (List (Constraint V)) :=
  violated sample p.constraints

def check (p : ConstraintProblem V) (sample : Assignment V) : Except (ModelError V) Bool :=
  (p.unsatisfied sample).map List.isEmpty

end ConstraintProblem

end BinaryQuadratic

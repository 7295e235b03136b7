import BinaryQuadratic.Model.Basic
import BinaryQuadratic.PackedState

/-! The energy of a state: the offset, then for each variable its linear term and its terms with
later variables. -/

namespace BinaryQuadratic

abbrev Assignment (V : Type) := V → Option Int

def valueOf {V : Type} (sample : Assignment V) (v : V) : Except (ModelError V) Int :=
  match sample v with
  | some x => .ok x
  | none => .error (.unassigned [v])

namespace Model

variable {V α : Type} [Coefficient α]

@[specialize] def addRowEnergy (x : Array α) (i : Nat) (xi : α) : List (Nat × α) → α → Option α
  | [], e => some e
  | (j, w) :: row, e =>
    if i < j then
      match x[j]? with
      | some xj => addRowEnergy x i xi row (e + w * xi * xj)
      | none => none
    else addRowEnergy x i xi row e

@[specialize] def addEnergyFrom (x : Array α) :
    Nat → List (α × OrderedMap Nat α) → α → Option α
  | _, [], e => some e
  | i, (b, row) :: rows, e =>
    match x[i]? with
    | some xi =>
      match addRowEnergy x i xi row.entries (e + b * xi) with
      | some e => addEnergyFrom x (i + 1) rows e
      | none => none
    | none => none

@[specialize] def energyOfValues? (m : Model V α) (x : Array α) : Option α :=
  addEnergyFrom x 0 (m.biases.zip m.adjacency) m.offset

@[specialize] def coordinates (t : Vartype) (bits : List Bool) : List α :=
  let lower : α := ((t.value false : Int) : α)
  let upper : α := ((t.value true : Int) : α)
  bits.map fun b => if b then upper else lower

theorem coordinates_eq (t : Vartype) (bits : List Bool) :
    coordinates t bits = bits.map fun b => ((t.value b : Int) : α) := by
  refine List.map_congr_left fun b _ => ?_
  cases b <;> rfl

@[specialize] def energyOfState? (m : Model V α) (s : PackedState) : Option α :=
  if s.len = m.numVariables then m.energyOfValues? (coordinates m.vartype s.bits).toArray
  else none

/-- The energy of a labelled assignment. Missing values are reported before values outside of the
domain, and labels that the model does not have are passed over. -/
def energy (m : Model V α) (sample : Assignment V) : Except (ModelError V) α :=
  match m.labels.filter fun v => (sample v).isNone with
  | [] =>
    match PackedState.ofValues? m.vartype (m.labels.filterMap sample) with
    | none => .error (.outsideDomain m.vartype)
    | some s =>
      match m.energyOfState? s with
      | none => .error .misfit
      | some e => .ok e
  | missing => .error (.unassigned missing)

end Model

def PackedState.ofNumber (n k : Nat) : PackedState :=
  .ofBits ((List.range n).map k.testBit)

@[specialize] def Model.energies? {V α : Type} [Coefficient α] (m : Model V α) :
    Option (List α) :=
  (List.range (Nat.pow 2 m.numVariables)).mapM fun k =>
    m.energyOfState? (.ofNumber m.numVariables k)

end BinaryQuadratic

import BinaryQuadratic.Model.Energy

/-! Metropolis sweeps. Each variable has a local field, the factor by which changing its value
changes the energy. The fields are kept up to date: a flip only moves those of the neighbours. -/

namespace BinaryQuadratic.Annealing

open Coefficient Randomness

structure Couplings (α : Type) where
  vartype : Vartype
  biases : Array α
  neighbors : Array (List (Nat × α))

structure Chain (α γ : Type) where
  state : PackedState
  fields : Array α
  random : γ

variable {V α γ : Type} [Coefficient α]

namespace Couplings

def ofModel (m : Model V α) : Couplings α where
  vartype := m.vartype
  biases := m.biases.toArray
  neighbors := (m.adjacency.map OrderedMap.entries).toArray

def size (c : Couplings α) : Nat := c.biases.size

def isEmpty (c : Couplings α) : Bool := c.size = 0

@[inline] def step (c : Couplings α) (b : Bool) : α :=
  if b then -ofNat c.vartype.width else ofNat c.vartype.width

@[specialize] def addPull? (t : Vartype) (s : PackedState) : List (Nat × α) → α → Option α
  | [], f => some f
  | (j, w) :: row, f =>
    match s.get? j with
    | some b => addPull? t s row (f + w * ((t.value b : Int) : α))
    | none => none

@[specialize] def fieldsFrom? (t : Vartype) (s : PackedState) :
    List (List (Nat × α) × α) → Option (List α)
  | [] => some []
  | (row, h) :: rest => do
    let f ← addPull? t s row h
    let fs ← fieldsFrom? t s rest
    pure (f :: fs)

def localFields? (c : Couplings α) (s : PackedState) : Option (Array α) :=
  (fieldsFrom? c.vartype s (c.neighbors.toList.zip c.biases.toList)).map List.toArray

end Couplings

/-- A number from the unit interval, on the grid of `2 ^ 52` steps. -/
@[inline] def uniform [Generator γ] (g : γ) : α × γ :=
  let (w, g) := Generator.next g
  (ofNat (w >>> 12).toNat / ofNat 4503599627370496, g)

/-- Beyond this multiple of the temperature an increase is refused without a draw. -/
def acceptanceLimit : α := ofNat 4436142 / ofNat 100000

/-- Metropolis' rule for a change of energy: one that is not an increase is accepted, any other
with a probability that falls with its size. -/
@[inline] def accepts [Generator γ] (beta change : α) (g : γ) : Bool × γ :=
  if quotientLt acceptanceLimit beta change then (false, g)
  else if change ≤ 0 then (true, g)
  else
    let (r, g) := uniform g
    (r < exp (-change * beta), g)

@[specialize] def shiftFields? (step : α) : List (Nat × α) → Array α → Option (Array α)
  | [], fields => some fields
  | (j, w) :: row, fields =>
    if h : j < fields.size then
      shiftFields? step row (fields.set j (fields[j] + w * step))
    else none

namespace Chain

def energyChange? (c : Couplings α) (chain : Chain α γ) (i : Nat) : Option α := do
  pure (c.step (← chain.state.get? i) * (← chain.fields[i]?))

variable [Generator γ]

@[inline] def flip? (c : Couplings α) (chain : Chain α γ) (i : Nat) (b : Bool) :
    Option (Chain α γ) :=
  match chain with
  | ⟨state, fields, random⟩ =>
    match c.neighbors[i]? with
    | none => none
    | some row =>
      match state.flip? i, shiftFields? (c.step b) row fields with
      | some state, some fields => some ⟨state, fields, random⟩
      | _, _ => none

@[specialize] def propose? (c : Couplings α) (beta : α) (chain : Chain α γ) (i : Nat) :
    Option (Chain α γ) :=
  match chain with
  | ⟨state, fields, random⟩ =>
    match state.get? i, fields[i]? with
    | some b, some field =>
      match accepts beta (c.step b * field) random with
      | (true, random) => flip? c ⟨state, fields, random⟩ i b
      | (false, random) => some ⟨state, fields, random⟩
    | _, _ => none

@[specialize] def proposeAll? (c : Couplings α) (beta : α) :
    List Nat → Chain α γ → Option (Chain α γ)
  | [], chain => some chain
  | i :: rest, chain =>
    match propose? c beta chain i with
    | some chain => proposeAll? c beta rest chain
    | none => none

@[specialize] def sweeps? (c : Couplings α) (beta : α) (order : List Nat) :
    Nat → Chain α γ → Option (Chain α γ)
  | 0, chain => some chain
  | n + 1, chain =>
    match proposeAll? c beta order chain with
    | some chain => sweeps? c beta order n chain
    | none => none

@[specialize] def cool? (c : Couplings α) (order : List Nat) (n : Nat) :
    List α → Chain α γ → Option (Chain α γ)
  | [], chain => some chain
  | beta :: betas, chain =>
    match sweeps? c beta order n chain with
    | some chain => cool? c order n betas chain
    | none => none

end Chain

@[specialize] def anneal? [Generator γ] (c : Couplings α) (schedule : List α)
    (sweepsPerBeta : Nat) (s : PackedState) (g : γ) : Option (PackedState × γ) :=
  if s.len = c.size then
    match c.localFields? s with
    | none => none
    | some fields =>
      (Chain.cool? c (List.range s.len) sweepsPerBeta schedule ⟨s, fields, g⟩).map
        fun chain => (chain.state, chain.random)
  else none

end BinaryQuadratic.Annealing

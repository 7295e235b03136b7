import BinaryQuadratic.Proofs.Annealing.Metropolis

/-! The record of a run: at each proposal the fields are those of the current state and the computed
change is the difference of two energies. The changes of the accepted proposals lead from the
energy of the first state to that of the last. -/

namespace BinaryQuadratic.Annealing

open Coefficient Randomness

structure Event (α γ : Type) where
  beta : α
  position : Nat
  before : Chain α γ
  change : α
  accepted : Bool
  after : Chain α γ

variable {V α γ : Type} [Exact α] [Generator γ] {m : Model V α}

def Chain.event? (c : Couplings α) (beta : α) (chain : Chain α γ) (i : Nat) :
    Option (Event α γ) := do
  let change ← chain.energyChange? c i
  let next ← propose? c beta chain i
  pure ⟨beta, i, chain, change, (accepts beta change chain.random).1, next⟩

def Chain.record? (c : Couplings α) :
    List (α × Nat) → Chain α γ → Option (List (Event α γ) × Chain α γ)
  | [], chain => some ([], chain)
  | (beta, i) :: rest, chain => do
    let e ← event? c beta chain i
    let (es, last) ← record? c rest e.after
    pure (e :: es, last)

def acceptedChange (es : List (Event α γ)) : α := ((es.filter (·.accepted)).map (·.change)).sum

namespace Event

def FieldsCurrent (m : Model V α) (e : Event α γ) : Prop :=
  e.before.fields.size = m.numVariables ∧
    ∀ k < m.numVariables, e.before.fields[k]? = (Couplings.ofModel m).fieldAt? e.before.state k

def ChangeExact (m : Model V α) (e : Event α γ) : Prop :=
  ∃ energy flipped, m.energyOfState? e.before.state = some energy ∧
    m.energyOfState? (e.before.state.toggle e.position) = some flipped ∧
    e.change = flipped - energy ∧
    e.after.state = if e.accepted then e.before.state.toggle e.position else e.before.state

end Event

theorem Chain.run?_of_record? {c : Couplings α} {ps : List (α × Nat)} {chain last : Chain α γ}
    {es : List (Event α γ)} (h : record? c ps chain = some (es, last)) :
    run? c ps chain = some last := by
  induction ps generalizing chain es with
  | nil => exact congrArg some (Prod.mk.inj (Option.some.inj h)).2
  | cons p ps ih =>
    obtain ⟨e, he, h⟩ := Option.bind_eq_some_iff.1 h
    obtain ⟨⟨es', last'⟩, hrest, h⟩ := Option.bind_eq_some_iff.1 h
    obtain ⟨change, -, he⟩ := Option.bind_eq_some_iff.1 he
    obtain ⟨next, hnext, he⟩ := Option.bind_eq_some_iff.1 he
    obtain rfl := Option.some.inj he
    obtain ⟨-, rfl⟩ := Prod.mk.inj (Option.some.inj h)
    rw [run?, List.foldlM_cons, hnext]
    exact ih hrest

namespace Chain.Tracks

variable {chain : Chain α γ}

theorem event?_eq (hm : m.WellFormed) (h : chain.Tracks m) {i : Nat} (hi : i < m.numVariables)
    (beta : α) :
    ∃ e, event? (.ofModel m) beta chain i = some e ∧ (e.beta, e.position) = (beta, i) ∧
      e.FieldsCurrent m ∧ e.ChangeExact m ∧ e.after.Tracks m ∧
      m.energyAt e.after.state =
        m.energyAt chain.state + if e.accepted then e.change else 0 := by
  obtain ⟨next, hnext, htracks, hstate, -⟩ := h.propose?_eq hm hi beta
  have hflipped : (chain.state.toggle i).len = m.numVariables := h.len_state
  have hchange := h.energyChange?_eq hm hi
  set change := m.energyAt (chain.state.toggle i) - m.energyAt chain.state with hdef
  let e : Event α γ := ⟨beta, i, chain, change, (accepts beta change chain.random).1, next⟩
  have hobserve : event? (.ofModel m) beta chain i = some e := by
    rw [event?, hchange, hnext]
    rfl
  have hexact : e.ChangeExact m :=
    ⟨_, _, hm.energyOfState?_eq h.len_state, hm.energyOfState?_eq hflipped, hdef, hstate⟩
  refine ⟨e, hobserve, rfl, ⟨h.size_fields, fun k hk => h.fields_eq_fieldAt? hm hk⟩, hexact,
    htracks, ?_⟩
  rw [show e.after.state = _ from hstate]
  split
  · exact (add_sub_cancel _ _).symm
  · exact (add_zero _).symm

theorem record?_eq (hm : m.WellFormed) (h : chain.Tracks m) {ps : List (α × Nat)}
    (hps : ∀ p ∈ ps, p.2 < m.numVariables) :
    ∃ es last, record? (.ofModel m) ps chain = some (es, last) ∧
      es.map (fun e => (e.beta, e.position)) = ps ∧
      (∀ e ∈ es, e.FieldsCurrent m ∧ e.ChangeExact m) ∧ last.Tracks m ∧
      m.energyAt last.state = m.energyAt chain.state + acceptedChange es := by
  -- `Tracks` carries the induction: it makes each change the difference of two energies
  induction ps generalizing chain with
  | nil => exact ⟨[], chain, rfl, rfl, by simp, h, by simp [acceptedChange]⟩
  | cons p ps ih =>
    obtain ⟨e, he, hproposed, hfields, hchange, htracks, henergy⟩ :=
      h.event?_eq hm (hps p (by simp)) p.1
    obtain ⟨es, last, hrest, hmap, hall, hlast, htotal⟩ :=
      ih htracks fun q hq => hps q (List.mem_cons_of_mem _ hq)
    refine ⟨e :: es, last, ?_, ?_, ?_, hlast, ?_⟩
    · rw [record?, he, Option.bind_eq_bind, Option.bind_some, hrest]
      rfl
    · rw [List.map_cons, hproposed, hmap]
    · rintro e' (_ | ⟨_, he'⟩)
      · exact ⟨hfields, hchange⟩
      · exact hall e' he'
    · rw [htotal, henergy, acceptedChange, acceptedChange, List.filter_cons, add_assoc]
      split <;> simp

end Chain.Tracks

/-- At each proposal of a run the fields are current and the computed change is exact, and the
energy of the last state is that of the first and all accepted changes. -/
theorem anneal?_keeps_fields_and_energy [DecidableEq V] (hm : m.Reachable) {s : PackedState}
    (hs : s.Fits) (hlen : s.len = m.numVariables) (schedule : List α) (sweepsPerBeta : Nat) (g : γ) :
    let ps := proposals (List.range m.numVariables) sweepsPerBeta schedule
    ∃ fields es last, (Couplings.ofModel m).localFields? s = some fields ∧
      Chain.record? (.ofModel m) ps ⟨s, fields, g⟩ = some (es, last) ∧
      anneal? (.ofModel m) schedule sweepsPerBeta s g = some (last.state, last.random) ∧
      es.map (fun e => (e.beta, e.position)) = ps ∧
      (∀ e ∈ es, e.FieldsCurrent m ∧ e.ChangeExact m) ∧
      ∃ first final, m.energyOfState? s = some first ∧ m.energyOfState? last.state = some final ∧
        final = first + acceptedChange es := by
  intro ps
  have hw := hm.wellFormed
  have hps : ∀ p ∈ ps, p.2 < m.numVariables := fun p hp =>
    List.mem_range.1 (mem_order_of_mem_proposals hp)
  obtain ⟨fields, hfields, htracks⟩ := tracks_localFields hw hs hlen g
  obtain ⟨es, last, hrecord, hmap, hall, hlast, henergy⟩ := htracks.record?_eq hw hps
  obtain ⟨last', hrun, -, heq⟩ := htracks.run?_eq hw hps
  obtain rfl : last = last' :=
    Option.some.inj ((Chain.run?_of_record? hrecord).symm.trans hrun)
  refine ⟨fields, es, last, hfields, hrecord, ?_, hmap, hall, _, _,
    hw.energyOfState?_eq hlen, hw.energyOfState?_eq hlast.len_state, henergy⟩
  rw [anneal?_eq_metropolis hw hs hlen, heq]

theorem anneal?_two_spins :
    let m : Model Nat ℝ := (Model.empty .spin).couple 0 1 (-2)
    let s := PackedState.ofBits [true, false]
    m.Reachable ∧ s.Fits ∧ s.len = m.numVariables ∧
      ∃ (es : List (Event ℝ Pcg64)) (last : Chain ℝ Pcg64),
        anneal? (.ofModel m) [0, 3] 1 s (Seedable.ofSeed 7) =
          some (last.state, last.random) ∧
        es.map (fun e => (e.beta, e.position)) = [(0, 0), (0, 1), (3, 0), (3, 1)] ∧
        (∀ e ∈ es, e.FieldsCurrent m ∧ e.ChangeExact m) ∧
        ∃ first final, m.energyOfState? s = some first ∧
          m.energyOfState? last.state = some final ∧ final = first + acceptedChange es := by
  intro m s
  have hm : m.Reachable := .addInteraction (.empty .spin) (u := 0) (v := 1) (b := -2) rfl
  have hs : s.Fits := PackedState.fits_ofBits _
  have hlen : s.len = m.numVariables := rfl
  obtain ⟨fields, es, last, -, -, hanneal, hmap, hall, henergy⟩ :=
    anneal?_keeps_fields_and_energy hm hs hlen [0, 3] 1 (Seedable.ofSeed 7 : Pcg64)
  exact ⟨hm, hs, hlen, es, last, hanneal, hmap, hall, henergy⟩

end BinaryQuadratic.Annealing

import BinaryQuadratic.Proofs.Annealing.Metropolis
import BinaryQuadratic.Proofs.Annealing.Outcomes
import BinaryQuadratic.Proofs.Coefficient.Binary64.Integers

/-! Proposals that are no increase, at each temperature of a run. The threshold that increases are
refused above is not below zero, so that nothing else is refused, unless the inverse temperature is
a zero with a sign: that turns the threshold into the least double, which all finite changes exceed. -/

namespace BinaryQuadratic.Annealing

open Coefficient Binary64 Randomness

section Proposals

variable {V α γ : Type} [Coefficient α] [Generator γ] {m : Model V α} {c : Couplings α}
  {beta change : α} {chain next : Chain α γ} {i : Nat}

theorem accepts_of_le_zero (h : change ≤ 0) (g : γ) :
    accepts beta change g = (!quotientLt acceptanceLimit beta change, g) := by
  rw [accepts]
  cases quotientLt acceptanceLimit beta change with
  | true => rfl
  | false => exact if_pos h

namespace Chain

omit [Generator γ] in
theorem state_of_flip? {b : Bool} (h : flip? c chain i b = some next) :
    chain.state.flip? i = some next.state := by
  obtain ⟨state, fields, random⟩ := chain
  simp only [flip?] at h
  split at h
  · cases h
  · split at h
    · next hstate hfields =>
      obtain rfl := Option.some.inj h
      exact hstate
    · cases h

theorem state_of_propose? (h : propose? c beta chain i = some next) :
    ∃ change, chain.energyChange? c i = some change ∧
      (if (accepts beta change chain.random).1 then chain.state.flip? i = some next.state
        else next.state = chain.state) := by
  obtain ⟨state, fields, random⟩ := chain
  simp only [propose?] at h
  split at h
  · next b field hb hfield =>
    refine ⟨c.step b * field, ?_, ?_⟩
    · simp only [energyChange?, hb, hfield]
      rfl
    · split at h
      · next hd =>
        have hflip := state_of_flip? h
        simpa only [hd, if_true] using hflip
      · next hd =>
        obtain rfl := Option.some.inj h
        simp only [hd, Bool.false_eq_true, if_false]
  · cases h

theorem Suits.exists_run? (hm : m.WellFormed) (h : chain.Suits m) {ps : List (α × Nat)}
    (hps : ∀ p ∈ ps, p.2 < m.numVariables) :
    ∃ last, run? (.ofModel m) ps chain = some last ∧ last.Suits m := by
  induction ps generalizing chain with
  | nil => exact ⟨chain, rfl, h⟩
  | cons p ps ih =>
    obtain ⟨next, hnext, hsuits⟩ := h.exists_propose? hm (hps p List.mem_cons_self) p.1
    rw [run?, List.foldlM_cons, hnext]
    exact ih hsuits fun q hq => hps q (List.mem_cons_of_mem _ hq)

theorem Suits.exists_nonincreasing (hm : m.WellFormed) (h : chain.Suits m)
    (hi : i < m.numVariables) (beta : α) :
    ∃ change next, chain.energyChange? (.ofModel m) i = some change ∧
      propose? (.ofModel m) beta chain i = some next ∧ next.Suits m ∧
      (change ≤ 0 → next.state =
        if quotientLt acceptanceLimit beta change then chain.state else chain.state.toggle i) := by
  obtain ⟨next, hnext, hsuits⟩ := h.exists_propose? hm hi beta
  obtain ⟨change, hchange, hstate⟩ := state_of_propose? hnext
  refine ⟨change, next, hchange, hnext, hsuits, fun hle => ?_⟩
  rw [accepts_of_le_zero hle, h.canonical.fits.flip?_eq (h.len_state ▸ hi)] at hstate
  split
  · next hlt => simpa [hlt] using hstate
  · next hlt => simpa [hlt, eq_comm] using hstate

end Chain

end Proposals

/-- Doubles with given functions for the exponential and the logarithm. -/
@[reducible] def withFunctions (exp log : Float → Float) : Coefficient Float :=
  { (inferInstance : Coefficient Float) with exp := exp, log := log }

example : withFunctions Float.exp Float.log = (inferInstance : Coefficient Float) := rfl

section Schedules

section Settings

variable {α : Type} [Coefficient α] {start stop : α} {betas : List α} {i : Interpolation}

theorem Betas.of_validate_range (h : (Betas.range start stop).validate i = .ok ()) :
    isFinite start = true ∧ isFinite stop = true ∧ ¬start < 0 ∧ ¬stop < start := by
  rw [Betas.validate] at h
  split at h
  · cases h
  · next hfinite =>
    split at h
    · cases h
    · next horder => simp_all [not_or]

theorem Betas.of_validate_schedule (h : (Betas.schedule betas).validate i = .ok ()) :
    ∀ beta ∈ betas, ¬beta < 0 := by
  rw [Betas.validate] at h
  split at h
  · cases h
  · split at h
    · cases h
    · next hall => simp_all [not_or]

end Settings

variable {start stop : Float} {exp log : Float → Float}

theorem notBelow_linear (hstart : NotBelow start.toModel.unpack)
    (hstop : NotBelow stop.toModel.unpack) (h : ¬stop < start) (count : Nat) :
    ∀ beta ∈ linear start stop count, NotBelow beta.toModel.unpack := by
  intro beta hbeta
  rw [linear] at hbeta
  split at hbeta
  · rwa [List.mem_singleton.1 hbeta]
  · obtain ⟨i, hi, rfl⟩ := List.mem_map.1 hbeta
    have hcount : 0 < count := (Nat.zero_le i).trans_lt (List.mem_range.1 hi)
    have hstep := notBelow_div (notBelow_sub hstop hstart h) (signless_ofNat_sub_one hcount)
    exact notBelow_add hstart (notBelow_mul (notBelow_ofNat i) hstep)

theorem notBelow_geometric (hexp : ∀ x, ¬exp x < 0) (hstart : NotBelow start.toModel.unpack)
    (hstop : NotBelow stop.toModel.unpack) (count : Nat) :
    letI := withFunctions exp log
    ∀ beta ∈ geometric start stop count, NotBelow beta.toModel.unpack := by
  intro beta hbeta
  unfold geometric at hbeta
  split at hbeta
  · rwa [List.mem_singleton.1 hbeta]
  · obtain ⟨i, -, rfl⟩ := List.mem_map.1 hbeta
    exact notBelow_mul hstart (notBelow_of_not_lt_zero (hexp _))

theorem notBelow_schedule {V : Type} (hexp : ∀ x, ¬exp x < 0) :
    letI := withFunctions exp log
    ∀ {a : Annealer Float} (m : Model V Float), a.validate = .ok () → a.betas ≠ .auto →
      ∀ beta ∈ (a.run m).schedule, NotBelow beta.toModel.unpack := by
  intro a m hvalid hbetas beta hbeta
  let _ := withFunctions exp log
  obtain ⟨-, -, hsettings⟩ := Annealer.validate_eq_ok_iff.1 hvalid
  change beta ∈ a.betas.scheduleFor a.interpolation (a.numSweeps / a.sweepsPerBeta) m at hbeta
  cases hb : a.betas with
  | auto => exact absurd hb hbetas
  | schedule betas =>
    rw [hb] at hsettings hbeta
    exact notBelow_of_not_lt_zero (Betas.of_validate_schedule hsettings beta hbeta)
  | range start stop =>
    rw [hb] at hsettings hbeta
    obtain ⟨hfinite, -, hstart, hstop⟩ := Betas.of_validate_range hsettings
    have hstart' := notBelow_of_not_lt_zero hstart
    have hstop' := notBelow_of_not_lt hfinite hstart hstop
    cases hi : a.interpolation with
    | linear =>
      rw [hi] at hbeta
      exact notBelow_linear hstart' hstop' hstop _ beta hbeta
    | geometric =>
      rw [hi] at hbeta
      exact notBelow_geometric hexp hstart' hstop' _ beta hbeta

end Schedules

theorem quotientLt_iff_div_lt {x y z : Float} : quotientLt x y z = true ↔ x / y < z :=
  decide_eq_true_iff

theorem acceptanceLimit_div_lt_iff {beta change : Float} (hbeta : NotBelow beta.toModel.unpack)
    (hle : change ≤ 0) : acceptanceLimit / beta < change ↔ beta = -0 ∧ -infinity < change := by
  by_cases hzero : beta = -0
  · have hlimit : (acceptanceLimit : Float) / -0 = -infinity := by decide
    rw [hzero, hlimit, and_iff_right rfl]
  · have hsignless := signless_div (a := acceptanceLimit) (by decide)
      (signless_of_ne_neg_zero hbeta hzero)
    exact iff_of_false (hsignless.not_lt_of_le_zero hle) fun h => hzero h.1

/-- In a run with given inverse temperatures each proposal that is computed to be no increase flips
its bit, except at `-0`: there it leaves the state as it is unless the change is infinite. -/
theorem nonincreasing_proposals {V γ : Type} [DecidableEq V] [Generator γ] (exp log : Float → Float)
    (hexp : ∀ x, ¬exp x < 0) :
    letI := withFunctions exp log
    ∀ {m : Model V Float} {a : Annealer Float}, m.Reachable → a.validate = .ok () →
      a.betas ≠ .auto → ∀ (s : PackedState) (g : γ), s.Canonical → s.len = m.numVariables →
      let ps := proposals (List.range m.numVariables) a.sweepsPerBeta (a.run m).schedule
      ∃ fields, (Couplings.ofModel m).localFields? s = some fields ∧
        anneal? (.ofModel m) (a.run m).schedule a.sweepsPerBeta s g =
          (Chain.run? (.ofModel m) ps ⟨s, fields, g⟩).map (fun last => (last.state, last.random)) ∧
        ∀ before beta i after, ps = before ++ (beta, i) :: after →
          ∃ chain change next, Chain.run? (.ofModel m) before ⟨s, fields, g⟩ = some chain ∧
            chain.energyChange? (.ofModel m) i = some change ∧
            Chain.propose? (.ofModel m) beta chain i = some next ∧
            (change ≤ 0 → next.state =
              if beta = -0 ∧ -infinity < change then chain.state else chain.state.toggle i) := by
  intro m a hm hvalid hbetas s g hs hlen ps
  let _ := withFunctions exp log
  have hw := hm.wellFormed
  obtain ⟨fields, hfields, hsize⟩ := Couplings.exists_localFields? hw hs.fits hlen
  have hstart : Chain.Suits m (⟨s, fields, g⟩ : Chain Float γ) := ⟨hs, hlen, hsize⟩
  refine ⟨fields, hfields, ?_, fun before beta i after hps => ?_⟩
  · rw [anneal?_eq_run? (hlen.trans (Couplings.size_ofModel m).symm) hfields, hlen]
  · have hmem : (beta, i) ∈ ps := hps ▸ List.mem_append_right before List.mem_cons_self
    have hbefore : ∀ p ∈ before, p.2 < m.numVariables := fun p hp =>
      List.mem_range.1 (mem_order_of_mem_proposals (hps ▸ List.mem_append_left _ hp))
    have hbeta := notBelow_schedule hexp m hvalid hbetas beta (mem_schedule_of_mem_proposals hmem)
    obtain ⟨chain, hchain, hsuits⟩ := hstart.exists_run? hw hbefore
    obtain ⟨change, next, hchange, hnext, -, hstate⟩ := hsuits.exists_nonincreasing hw
      (List.mem_range.1 (mem_order_of_mem_proposals hmem)) beta
    refine ⟨chain, change, next, hchain, hchange, hnext, fun hle => ?_⟩
    rw [hstate hle]
    exact if_congr (quotientLt_iff_div_lt.trans (acceptanceLimit_div_lt_iff hbeta hle)) rfl rfl

theorem nonincreasing_proposals_constant_temperature :
    letI := withFunctions (fun _ => 1) fun _ => 0
    let m : Model Nat Float := (Model.empty .binary).addVariable 0 1
    let a : Annealer Float := { numSweeps := 2, betas := .range 2 2 }
    let s := PackedState.ofBits [true]
    let g : Pcg64 := Seedable.ofSeed 1
    ¬(1 : Float) < 0 ∧ m.Reachable ∧ a.validate = .ok () ∧ a.betas ≠ .auto ∧ s.Canonical ∧
      s.len = m.numVariables ∧ (a.run m).schedule = [2, 2] ∧
      ∃ next, Chain.propose? (.ofModel m) 2 ⟨s, #[1], g⟩ 0 = some next ∧ next.state = s.toggle 0 := by
  let _ := withFunctions (fun _ => 1) fun _ => 0
  intro m a s g
  have hone : ¬(1 : Float) < 0 := by decide
  have hm : m.Reachable := .addVariable 0 1 (.empty .binary)
  have hvalid : a.validate = .ok () := by decide
  have hs : s.Canonical := PackedState.canonical_ofBits [true]
  have hlen : s.len = m.numVariables := rfl
  have hschedule : (a.run m).schedule = [2, 2] := by decide
  have hproposals : proposals (List.range m.numVariables) a.sweepsPerBeta (a.run m).schedule =
      [] ++ (2, 0) :: [(2, 0)] := by
    rw [hschedule]
    rfl
  obtain ⟨fields, hfields, -, hall⟩ := nonincreasing_proposals (fun _ => 1) (fun _ => 0)
    (fun _ => hone) hm hvalid nofun s g hs hlen
  obtain ⟨chain, change, next, hchain, hchange, hnext, hstate⟩ := hall _ _ _ _ hproposals
  have hfields' : (Couplings.ofModel m).localFields? s = some #[1] := rfl
  obtain rfl := Option.some.inj (hfields.symm.trans hfields')
  obtain rfl := Option.some.inj hchain
  have hchange' : Chain.energyChange? (.ofModel m) (⟨s, #[1], g⟩ : Chain Float Pcg64) 0 =
      some (-1) := by decide
  obtain rfl := Option.some.inj (hchange.symm.trans hchange')
  refine ⟨hone, hm, hvalid, nofun, hs, hlen, hschedule, next, hnext, ?_⟩
  rw [hstate (by decide), if_neg (by decide)]

/-- The inverse temperature `-0` is not refused as below zero, and then keeps a variable at one
although a zero would lower the energy. -/
theorem decrease_refused_at_neg_zero :
    let m : Model Nat Float := (Model.empty .binary).addVariable 0 1
    let a : Annealer Float := { betas := .schedule [-0] }
    let s := PackedState.ofBits [true]
    let g : Pcg64 := Seedable.ofSeed 1
    m.Reachable ∧ a.validate = .ok () ∧ (Couplings.ofModel m).localFields? s = some #[1] ∧
      Chain.energyChange? (.ofModel m) (⟨s, #[1], g⟩ : Chain Float Pcg64) 0 = some (-1) ∧
      (-1 : Float) ≤ 0 ∧
      Chain.propose? (.ofModel m) (-0) ⟨s, #[1], g⟩ 0 = some ⟨s, #[1], g⟩ ∧
      anneal? (.ofModel m) (a.run m).schedule a.sweepsPerBeta s g = some (s, g) ∧
      s ≠ s.toggle 0 := by
  intro m a s g
  have hfields : (Couplings.ofModel m).localFields? s = some #[1] := rfl
  have hbit : s.get? 0 = some true := by decide
  have hchange : (Couplings.ofModel m).step true * 1 = -1 := by decide
  have hrefused : accepts (-0 : Float) (-1) g = (false, g) := rfl
  have hpropose : Chain.propose? (.ofModel m) (-0) ⟨s, #[1], g⟩ 0 = some ⟨s, #[1], g⟩ := by
    have hfield : (#[(1 : Float)])[0]? = some 1 := rfl
    simp only [Chain.propose?, hbit, hfield, hchange, hrefused]
  have hanneal : anneal? (.ofModel m) (a.run m).schedule a.sweepsPerBeta s g = some (s, g) := by
    have hproposals : proposals (List.range s.len) a.sweepsPerBeta (a.run m).schedule = [(-0, 0)] :=
      rfl
    rw [anneal?_eq_run? rfl hfields, hproposals, Chain.run?, List.foldlM_cons, hpropose]
    rfl
  exact ⟨.addVariable 0 1 (.empty .binary), by decide, hfields, by decide, by decide, hpropose,
    hanneal, by decide⟩

end BinaryQuadratic.Annealing

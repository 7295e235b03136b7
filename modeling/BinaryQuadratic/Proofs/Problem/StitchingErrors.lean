import BinaryQuadratic.Proofs.Coefficient.TotalOrder
import BinaryQuadratic.Proofs.Problem.Gates
import BinaryQuadratic.Proofs.Problem.Stitching

/-! How stitching fails: by a gap that is not finite and positive, or by the first constraint that
has no penalty. No penalty couples a variable with itself, and the configurations of a wide
constraint are never looked at. -/

namespace BinaryQuadratic

open Coefficient

variable {V α : Type} [DecidableEq V] [Coefficient α]

section Couplings

namespace Model

theorem exists_addPairs (table : Nat → α) {ps : List ((V × Nat) × (V × Nat))}
    (h : ∀ p ∈ ps, p.1.1 ≠ p.2.1) (m : Model V α) : ∃ m', addPairs table ps m = .ok m' := by
  induction ps generalizing m with
  | nil => exact ⟨m, rfl⟩
  | cons p ps ih =>
    obtain ⟨⟨u, i⟩, v, j⟩ := p
    have huv : u ≠ v := h _ List.mem_cons_self
    have hrest := ih fun p hp => h p (List.mem_cons_of_mem _ hp)
    rw [addPairs]
    split
    · exact hrest m
    · rw [addInteraction, if_neg huv]
      exact hrest _

theorem exists_addInterpolated (m : Model V α) {vs : List V} (h : vs.Nodup) (table : Nat → α) :
    ∃ m', m.addInterpolated vs table = .ok m' :=
  exists_addPairs table (fun _ hp => rel_of_mem_pairs (pairwise_zipIdx_ne h) hp) _

end Model

end Couplings

section Failures

omit [DecidableEq V] in
def FirstRefused (cs : List (Constraint V)) (cause : Unsupported V) : Prop :=
  ∃ before c after, cs = before ++ c :: after ∧ (∀ c' ∈ before, ¬c'.Unpenalizable) ∧
    c.Refused cause

variable {c : Constraint V} {cs : List (Constraint V)} {cause : Unsupported V}

omit [DecidableEq V] in
theorem firstRefused_cons_iff : FirstRefused (c :: cs) cause ↔
    c.Refused cause ∨ ¬c.Unpenalizable ∧ FirstRefused cs cause := by
  constructor
  · rintro ⟨_ | ⟨b, before⟩, c', after, hcs, hbefore, hc'⟩
    · obtain ⟨rfl, -⟩ := List.cons.inj hcs
      exact .inl hc'
    · obtain ⟨rfl, rfl⟩ := List.cons.inj hcs
      exact .inr ⟨hbefore c List.mem_cons_self, before, c', after, rfl,
        fun b hb => hbefore b (List.mem_cons_of_mem _ hb), hc'⟩
  · rintro (hc | ⟨hc, before, c', after, rfl, hbefore, hc'⟩)
    · exact ⟨[], c, cs, rfl, by simp, hc⟩
    · exact ⟨c :: before, c', after, rfl, List.forall_mem_cons.2 ⟨hc, hbefore⟩, hc'⟩

omit [DecidableEq V] in
theorem exists_firstRefused_iff :
    (∃ cause, FirstRefused cs cause) ↔ ∃ c ∈ cs, c.Unpenalizable := by
  induction cs with
  | nil => simp [FirstRefused]
  | cons c cs ih =>
    simp only [firstRefused_cons_iff, exists_or, exists_and_left, ih, c.exists_refused_iff,
      List.exists_mem_cons_iff]
    tauto

theorem Model.addPenalties_eq_error_iff {gap : α} {m : Model V α} {e : ProblemError V α} :
    m.addPenalties gap cs = .error e ↔ ∃ cause, FirstRefused cs cause ∧ e = .unsupported cause := by
  induction cs generalizing m with
  | nil => simp [Model.addPenalties, FirstRefused]
  | cons c cs ih =>
    rw [Model.addPenalties]
    simp only [firstRefused_cons_iff]
    cases hc : c.penalty gap with
    | error cause =>
      -- a constraint is refused for one reason only, whichever gap is asked for
      have hrefused : ∀ {cause'}, c.Refused cause' ↔ cause' = cause := by
        intro cause'
        rw [← Constraint.penalty_eq_error_iff gap, hc, Except.error.injEq, eq_comm]
      have hbad : c.Unpenalizable := Constraint.exists_refused_iff.1 ⟨cause, hrefused.2 rfl⟩
      simp only [hrefused, hbad, not_true_eq_false, false_and, or_false, exists_eq_left,
        Except.error.injEq, @eq_comm _ e]
    | ok table =>
      have hrefused : ∀ {cause}, ¬c.Refused cause := fun h => by
        rw [← Constraint.penalty_eq_error_iff gap, hc] at h
        cases h
      have hgood : ¬c.Unpenalizable := fun h => by
        obtain ⟨cause, hcause⟩ := Constraint.exists_refused_iff.2 h
        exact hrefused hcause
      obtain ⟨m', hm'⟩ := m.exists_addInterpolated c.distinct table
      simp only [hrefused, hgood, not_false_eq_true, true_and, false_or, hm', ih]

theorem ConstraintProblem.stitch_eq_error_iff [SignDecided α] {p : ConstraintProblem V} {gap : α}
    {e : ProblemError V α} : p.stitch gap = .error e ↔
      (¬(isFinite gap = true ∧ 0 < gap) ∧ e = .invalid (.gap gap)) ∨
        (isFinite gap = true ∧ 0 < gap) ∧
          ∃ cause, FirstRefused p.constraints cause ∧ e = .unsupported cause := by
  have hgap : (!isFinite gap) = true ∨ gap ≤ 0 ↔ ¬(isFinite gap = true ∧ 0 < gap) := by
    cases hfinite : isFinite gap with
    | false => simp
    | true => simp [← SignDecided.not_nonpos_iff gap hfinite]
  rw [stitch]
  by_cases h : (!isFinite gap) = true ∨ gap ≤ 0
  · have hbad := hgap.1 h
    rw [if_pos h]
    simp only [hbad, not_false_eq_true, true_and, false_and, or_false, Except.error.injEq,
      @eq_comm _ e]
  · have hgood := not_not.1 (mt hgap.2 h)
    rw [if_neg h]
    simp only [hgood, not_true_eq_false, false_and, false_or, and_self, true_and]
    have hmap : ∀ x : Except (ProblemError V α) (Model V α),
        (x.map fun m => m.toVartype p.vartype) = .error e ↔ x = .error e := fun x => by
      cases x <;> simp [Except.map]
    exact (hmap _).trans Model.addPenalties_eq_error_iff

end Failures

section Tables

variable {gap : α} {log : List (Constraint V)}

def Constraint.table (c : Constraint V) : StateM (List (Constraint V)) (Nat → Bool) := do
  modify (· ++ [c])
  pure c.feasible

/-- The penalty of a constraint, which has to ask for the table of its configurations. -/
def Constraint.loggedPenalty (c : Constraint V) (gap : α) :
    StateM (List (Constraint V)) (Except (Unsupported V) (Nat → α)) :=
  if c.configurations.isEmpty then pure (.error (.noConfiguration c.name))
  else if maxPenaltyArity < c.arity then pure (.error (.tooManyVariables c.name c.arity))
  else do
    let feasible ← c.table
    if (List.range (Nat.pow 2 c.arity)).all feasible then pure (.ok fun _ => 0)
    else if c.arity = maxPenaltyArity then
      match Gadget.match? feasible with
      | some g => pure (.ok fun k => ((g.penalty k : Int) : α) * gap)
      | none => pure (.error (.noPenalty c.name))
    else pure (.ok fun k => if feasible k then 0 else gap)

def Model.loggedPenalties (gap : α) : List (Constraint V) → Model V α →
    StateM (List (Constraint V)) (Except (ProblemError V α) (Model V α))
  | [], m => pure (.ok m)
  | c :: rest, m => do
    match ← c.loggedPenalty gap with
    | .error cause => pure (.error (.unsupported cause))
    | .ok table =>
      match m.addInterpolated c.scope table with
      | .error e => pure (.error (.model e))
      | .ok m => Model.loggedPenalties gap rest m

def ConstraintProblem.loggedStitch (p : ConstraintProblem V) (gap : α) :
    StateM (List (Constraint V)) (Except (ProblemError V α) (Model V α)) :=
  if !isFinite gap ∨ gap ≤ 0 then pure (.error (.invalid (.gap gap)))
  else do
    let m := (Model.empty .binary).addVariables (p.labels.keys.map fun v => (v, 0))
    let result ← m.loggedPenalties gap p.constraints
    pure (result.map fun m => m.toVartype p.vartype)

omit [DecidableEq V] in
theorem Constraint.loggedPenalty_run (c : Constraint V) (gap : α) (log : List (Constraint V)) :
    ∃ new, (c.loggedPenalty gap).run log = (c.penalty gap, log ++ new) ∧
      ∀ c' ∈ new, c' = c ∧ c.arity ≤ maxPenaltyArity := by
  unfold loggedPenalty penalty
  split
  · exact ⟨[], by rw [List.append_nil]; rfl, by simp⟩
  split
  · exact ⟨[], by rw [List.append_nil]; rfl, by simp⟩
  next harity =>
  -- the width is known by the time that the table is asked for
  refine ⟨[c], ?_, fun c' hc' => ⟨List.mem_singleton.1 hc', not_lt.1 harity⟩⟩
  show StateT.run (if _ then _ else _ : StateM _ _) (log ++ [c]) = _
  split
  · rfl
  split
  · cases Gadget.match? c.feasible <;> rfl
  · rfl

theorem Model.loggedPenalties_run (gap : α) (cs : List (Constraint V)) (m : Model V α)
    (log : List (Constraint V)) :
    ∃ new, (m.loggedPenalties gap cs).run log = (m.addPenalties gap cs, log ++ new) ∧
      ∀ c ∈ new, c ∈ cs ∧ c.arity ≤ maxPenaltyArity := by
  induction cs generalizing m log with
  | nil => exact ⟨[], by rw [List.append_nil]; rfl, by simp⟩
  | cons c cs ih =>
    obtain ⟨first, hfirst, hnarrow⟩ := c.loggedPenalty_run gap log
    have hmem : ∀ c' ∈ first, c' ∈ c :: cs ∧ c'.arity ≤ maxPenaltyArity := by
      intro c' hc'
      obtain ⟨rfl, harity⟩ := hnarrow c' hc'
      exact ⟨List.mem_cons_self, harity⟩
    rw [loggedPenalties, StateT.run_bind, hfirst, addPenalties]
    show ∃ new, StateT.run (match c.penalty gap with | .error _ => _ | .ok _ => _ : StateM _ _)
      (log ++ first) = _ ∧ _
    cases c.penalty gap with
    | error cause => exact ⟨first, rfl, hmem⟩
    | ok table =>
      cases hm : m.addInterpolated c.scope table with
      | error e => exact ⟨first, by simp only [hm]; rfl, hmem⟩
      | ok m' =>
        obtain ⟨rest, hrest, hall⟩ := ih m' (log ++ first)
        refine ⟨first ++ rest, ?_, fun c' hc' => ?_⟩
        · simp only [hm]
          rw [← List.append_assoc]
          exact hrest
        · rcases List.mem_append.1 hc' with hc' | hc'
          · exact hmem c' hc'
          · exact ⟨List.mem_cons_of_mem _ (hall c' hc').1, (hall c' hc').2⟩

theorem ConstraintProblem.loggedStitch_run (p : ConstraintProblem V) (gap : α) :
    ∃ log, (p.loggedStitch gap).run [] = (p.stitch gap, log) ∧
      ∀ c ∈ log, c ∈ p.constraints ∧ c.arity ≤ maxPenaltyArity := by
  rw [loggedStitch, stitch]
  split
  · exact ⟨[], rfl, by simp⟩
  · obtain ⟨log, hlog, hall⟩ := Model.loggedPenalties_run gap p.constraints
      ((Model.empty .binary).addVariables (p.labels.keys.map fun v => (v, 0))) []
    refine ⟨log, ?_, hall⟩
    rw [StateT.run_bind, hlog]
    rfl

end Tables

namespace ConstraintProblem

inductive Addition (V : Type) where
  | addVariable (v : V)
  | addConstraint (c : Constraint V)

section Additions

omit [Coefficient α]

def Addition.apply (p : ConstraintProblem V) :
    Addition V → ConstraintProblem V × Option (ConstraintFault V)
  | addVariable v => (p.addVariable v, none)
  | addConstraint c =>
    match p.addConstraint c with
    | .ok p' => (p', none)
    | .error fault => (p, some fault)

def build (t : Vartype) (l : List (Addition V)) : ConstraintProblem V :=
  l.foldl (fun p a => (a.apply p).1) (.empty t)

def Addition.constraint? (t : Vartype) : Addition V → Option (Constraint V)
  | addVariable _ => none
  | addConstraint c => if c.vartype = t then some c else none

def Addition.isTaken (t : Vartype) : Addition V → Bool
  | addVariable _ => true
  | addConstraint c => c.vartype = t

theorem Addition.apply_of_isTaken_eq_false {p : ConstraintProblem V} {a : Addition V}
    (h : a.isTaken p.vartype = false) : ∃ fault, a.apply p = (p, some fault) := by
  cases a with
  | addVariable v => cases h
  | addConstraint c =>
    have hne : c.vartype ≠ p.vartype := of_decide_eq_false h
    exact ⟨_, by rw [apply, ConstraintProblem.addConstraint, if_neg hne]⟩

theorem Addition.constraints_apply (p : ConstraintProblem V) (a : Addition V) :
    (a.apply p).1.vartype = p.vartype ∧
      (a.apply p).1.constraints = p.constraints ++ (a.constraint? p.vartype).toList := by
  cases a with
  | addVariable v => exact ⟨rfl, (List.append_nil _).symm⟩
  | addConstraint c =>
    rw [apply, ConstraintProblem.addConstraint, constraint?]
    split_ifs
    · exact ⟨rfl, rfl⟩
    · exact ⟨rfl, (List.append_nil _).symm⟩

theorem build_filter (t : Vartype) (l : List (Addition V)) :
    build t (l.filter (·.isTaken t)) = build t l := by
  have key : ∀ p : ConstraintProblem V, p.vartype = t →
      (l.filter (·.isTaken t)).foldl (fun p a => (a.apply p).1) p =
        l.foldl (fun p a => (a.apply p).1) p := by
    induction l with
    | nil => exact fun p _ => rfl
    | cons a l ih =>
      intro p hp
      rw [List.filter_cons, List.foldl_cons]
      cases ha : a.isTaken t with
      | true => exact ih _ ((a.constraints_apply p).1.trans hp)
      | false =>
        obtain ⟨fault, hfault⟩ := Addition.apply_of_isTaken_eq_false (p := p) (hp ▸ ha)
        rw [hfault]
        exact ih p hp
  exact key _ rfl

theorem constraints_build (t : Vartype) (l : List (Addition V)) :
    (build t l).constraints = l.filterMap (Addition.constraint? t) := by
  have key : ∀ p : ConstraintProblem V, p.vartype = t →
      (l.foldl (fun p a => (a.apply p).1) p).constraints =
        p.constraints ++ l.filterMap (Addition.constraint? t) := by
    induction l with
    | nil => exact fun p _ => (List.append_nil _).symm
    | cons a l ih =>
      intro p hp
      obtain ⟨ht, hconstraints⟩ := a.constraints_apply p
      rw [List.foldl_cons, ih _ (ht.trans hp), hconstraints, hp, List.append_assoc,
        List.filterMap_cons]
      cases a.constraint? t <;> rfl
  exact key _ rfl

end Additions

/-- An invalid gap is found first. With a valid one, the first constraint that is impossible, wide,
or on three variables and neither free nor a gate is named; nothing else goes wrong. -/
theorem stitch_errors [SignDecided α] (t : Vartype) (l : List (Addition V)) (gap : α) :
    let p := build t l
    build t (l.filter (·.isTaken t)) = p ∧
      p.constraints = l.filterMap (Addition.constraint? t) ∧
      (∀ cause, p.stitch gap = .error (.invalid cause) ↔
        ¬(isFinite gap = true ∧ 0 < gap) ∧ cause = .gap gap) ∧
      (isFinite gap = true ∧ 0 < gap →
        ((∃ cause, p.stitch gap = .error (.unsupported cause)) ↔
          ∃ c ∈ p.constraints, c.Unpenalizable) ∧
        ∀ cause, p.stitch gap = .error (.unsupported cause) ↔
          FirstRefused p.constraints cause) ∧
      (∀ e, p.stitch gap ≠ .error (.model e)) ∧
      ∃ log, (p.loggedStitch gap).run [] = (p.stitch gap, log) ∧
        ∀ c ∈ log, c ∈ p.constraints ∧ c.arity ≤ 3 := by
  intro p
  have hunsupported : isFinite gap = true ∧ 0 < gap → ∀ cause,
      (p.stitch gap = .error (.unsupported cause) ↔ FirstRefused p.constraints cause) := by
    intro hgap cause
    simp [stitch_eq_error_iff, hgap]
  refine ⟨build_filter t l, constraints_build t l, fun cause => ?_, fun hgap => ⟨?_, ?_⟩,
    fun e he => ?_, p.loggedStitch_run gap⟩
  · simp [stitch_eq_error_iff]
  · simp only [hunsupported hgap, exists_firstRefused_iff]
  · exact hunsupported hgap
  · simp [stitch_eq_error_iff] at he

theorem stitch_errors_parity_after_gate :
    let spin : Constraint Nat :=
      { label := none, vartype := .spin, scope := [4], configurations := [[-1]]
        distinct := by decide, length_eq := by decide, inDomain := by decide }
    let gate : Constraint Nat :=
      { label := none, vartype := .binary, scope := [0, 1, 2]
        configurations := [[0, 0, 0], [0, 1, 1], [1, 0, 1], [1, 1, 1]]
        distinct := by decide, length_eq := by decide, inDomain := by decide }
    let parity : Constraint Nat :=
      { label := none, vartype := .binary, scope := [2, 0, 5]
        configurations := [[0, 0, 0], [0, 1, 1], [1, 0, 1], [1, 1, 0]]
        distinct := by decide, length_eq := by decide, inDomain := by decide }
    let wide : Constraint Nat :=
      { label := none, vartype := .binary, scope := [0, 1, 2, 3], configurations := [[0, 0, 0, 0]]
        distinct := by decide, length_eq := by decide, inDomain := by decide }
    let p := build .binary [.addVariable 9, .addConstraint spin, .addConstraint gate,
      .addConstraint parity, .addConstraint wide]
    p.constraints = [gate, parity, wide] ∧ isFinite (1 / 2 : Float) = true ∧ (0 : Float) < 1 / 2 ∧
      p.stitch (1 / 2 : Float) = .error (.unsupported (.noPenalty (.scope [2, 0, 5]))) ∧
      p.stitch (0 / 0 : Float) = .error (.invalid (.gap (0 / 0))) ∧
      ∃ log, (p.loggedStitch (1 / 2 : Float)).run [] = (p.stitch (1 / 2), log) ∧
        ∀ c ∈ log, c ∈ p.constraints ∧ c.arity ≤ 3 := by
  intro spin gate parity wide p
  have hconstraints : p.constraints = [gate, parity, wide] := rfl
  have hfinite : isFinite (1 / 2 : Float) = true := by decide
  have hpos : (0 : Float) < 1 / 2 := by decide
  have hnan : ¬(isFinite (0 / 0 : Float) = true ∧ (0 : Float) < 0 / 0) := by decide
  have hgate : ¬gate.Unpenalizable := by
    rintro (h | h | ⟨-, -, h⟩)
    · cases h
    · exact absurd h (by decide)
    · have hmatch : (Gadget.match? gate.feasible).isSome := by decide +kernel
      exact h ((gate.exists_match?_iff_isGate rfl).1 (Option.isSome_iff_exists.1 hmatch))
  have hparity : ¬parity.IsGate := (Constraint.match?_eq_none_iff rfl).1 (by decide +kernel)
  have hfirst : FirstRefused p.constraints (.noPenalty (.scope [2, 0, 5])) :=
    ⟨[gate], parity, [wide], hconstraints, by simpa using hgate,
      .noPenalty (List.cons_ne_nil _ _) rfl ⟨fun _ => true, rfl⟩ hparity⟩
  obtain ⟨-, -, -, hunsupported, -, hlog⟩ := stitch_errors .binary [.addVariable 9,
    .addConstraint spin, .addConstraint gate, .addConstraint parity, .addConstraint wide]
    (1 / 2 : Float)
  obtain ⟨-, -, hinvalid, -⟩ := stitch_errors .binary [.addVariable 9,
    .addConstraint spin, .addConstraint gate, .addConstraint parity, .addConstraint wide]
    (0 / 0 : Float)
  exact ⟨hconstraints, hfinite, hpos, ((hunsupported ⟨hfinite, hpos⟩).2 _).2 hfirst,
    (hinvalid _).2 ⟨hnan, rfl⟩, hlog⟩

end ConstraintProblem

end BinaryQuadratic

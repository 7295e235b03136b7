import Mathlib.Order.Lex
import Mathlib.Data.List.Lex
import BinaryQuadratic.Proofs.PackedState.Access
import BinaryQuadratic.Proofs.Problem.Stitching

/-! Constraints that are given by a predicate. The numbers below a power of two spell all
configurations, so that those kept are the ones that satisfy the predicate. They are listed without
repetition and in lexicographic order, and a list in that order is known by its members: a
constraint comes back when it is made anew from what satisfies it. -/

namespace BinaryQuadratic

section Order

theorem lexLe_iff_le {a b : List Int} : lexLe a b = true ↔ a ≤ b := by
  rw [← not_lt]
  induction a generalizing b with
  | nil => simp [lexLe]
  | cons x as ih =>
    cases b with
    | nil => simp [lexLe]
    | cons y bs =>
      rw [lexLe, List.cons_lt_cons_iff, Bool.or_eq_true, Bool.and_eq_true, ih, decide_eq_true_eq,
        beq_iff_eq]
      rcases lt_trichotomy x y with h | rfl | h
      · simp [h, h.not_gt, h.ne']
      · simp
      · simp [h, h.not_gt, h.ne']

theorem pairwise_dropRepeats {β : Type} [PartialOrder β] [DecidableEq β] {l : List β}
    (h : l.Pairwise (· ≤ ·)) : (dropRepeats l).Pairwise (· < ·) := by
  fun_induction dropRepeats l with
  | case1 a rest ih => exact ih h.of_cons
  | case2 a b rest hne ih =>
    refine List.pairwise_cons.2 ⟨fun x hx => ?_, ih h.of_cons⟩
    obtain ⟨hab, hbx⟩ : a < b ∧ b ≤ x := by
      have hle := List.pairwise_cons.1 h
      refine ⟨lt_of_le_of_ne (hle.1 b List.mem_cons_self) hne, ?_⟩
      rcases List.mem_cons.1 (mem_dropRepeats.1 hx) with rfl | hx
      · exact le_refl _
      · exact (List.pairwise_cons.1 hle.2).1 x hx
    exact hab.trans_le hbx
  | case3 l hl =>
    rcases l with - | ⟨a, - | ⟨b, rest⟩⟩
    · exact .nil
    · exact List.pairwise_singleton _ a
    · exact absurd rfl (hl a b rest)

theorem pairwise_sortedDistinct (l : List (List Int)) : (sortedDistinct l).Pairwise (· < ·) := by
  have htrans : ∀ a b c, lexLe a b = true → lexLe b c = true → lexLe a c = true :=
    fun a b c hab hbc => lexLe_iff_le.2 ((lexLe_iff_le.1 hab).trans (lexLe_iff_le.1 hbc))
  have htotal : ∀ a b, (lexLe a b || lexLe b a) = true := fun a b => by
    rw [Bool.or_eq_true, lexLe_iff_le, lexLe_iff_le]
    exact le_total a b
  have hsorted := List.pairwise_mergeSort htrans htotal l
  exact pairwise_dropRepeats (hsorted.imp lexLe_iff_le.1)

end Order

namespace Constraint

variable {V : Type} {scope : List V} {t : Vartype} {f : List Int → Bool} {c : Constraint V}
  {values : List Int}

theorem exists_configurationOf_eq_iff {n : Nat} : (∃ k < 2 ^ n, configurationOf t n k = values) ↔
    values.length = n ∧ ∀ x ∈ values, x ∈ t.values := by
  constructor
  · rintro ⟨k, -, rfl⟩
    refine ⟨by simp [configurationOf], fun x hx => ?_⟩
    obtain ⟨i, -, rfl⟩ := List.mem_map.1 hx
    exact Vartype.mem_values_iff.2 ⟨_, rfl⟩
  · rintro ⟨rfl, hdomain⟩
    obtain ⟨bits, hbits⟩ := PackedState.exists_mapM_bit?_iff.2 hdomain
    obtain rfl := PackedState.mapM_bit?_eq_some_iff.1 hbits
    rw [List.length_map]
    exact ⟨spelled bits, spelled_lt bits, configurationOf_spelled t bits⟩

theorem isSatisfiedBy_iff : c.isSatisfiedBy values = true ↔ values ∈ c.configurations :=
  List.contains_iff_mem

def Ordered (c : Constraint V) : Prop := c.configurations.Pairwise (· < ·)

theorem ext_of_ordered {c' : Constraint V} (hlabel : c.label = c'.label)
    (hvartype : c.vartype = c'.vartype) (hscope : c.scope = c'.scope) (hc : c.Ordered)
    (hc' : c'.Ordered) (h : ∀ values, values ∈ c.configurations ↔ values ∈ c'.configurations) :
    c = c' := by
  have hconfigurations : c.configurations = c'.configurations :=
    List.Pairwise.eq_of_mem_iff hc hc' h
  cases c
  cases c'
  simp_all

section Construction

variable [DecidableEq V]

theorem of_ofConfigurations {l : List (List Int)} (h : ofConfigurations scope t l = .ok c) :
    scope ≠ [] ∧ c.label = none ∧ c.vartype = t ∧ c.scope = scope ∧
      c.configurations = sortedDistinct l := by
  unfold ofConfigurations at h
  split at h
  · cases h
  next hne =>
  split at h
  · split at h
    · cases h
    · cases h
      exact ⟨hne, rfl, rfl, rfl, rfl⟩
  · cases h

theorem exists_ofConfigurations {l : List (List Int)} (hne : scope ≠ []) (hd : scope.Nodup)
    (hl : ∀ values ∈ l, fault? (V := V) t scope.length values = none) :
    ∃ c, ofConfigurations scope t l = .ok c := by
  unfold ofConfigurations
  rw [if_neg hne, dif_pos hd]
  split
  · next fault hfault =>
    obtain ⟨values, hvalues, hsome⟩ := List.exists_of_findSome?_eq_some hfault
    rw [hl values hvalues] at hsome
    cases hsome
  · exact ⟨_, rfl⟩

/-- A constraint on the variables of `scope` that is satisfied where `f` holds. -/
structure Captures (c : Constraint V) (scope : List V) (t : Vartype) (f : List Int → Bool) :
    Prop where
  label_eq : c.label = none
  vartype_eq : c.vartype = t
  scope_eq : c.scope = scope
  isSatisfiedBy_iff : ∀ values, c.isSatisfiedBy values = true ↔
    values.length = scope.length ∧ (∀ x ∈ values, x ∈ t.values) ∧ f values = true
  mem_configurations_iff : ∀ values, values ∈ c.configurations ↔
    values.length = scope.length ∧ (∀ x ∈ values, x ∈ t.values) ∧ f values = true
  nodup : c.configurations.Nodup
  ordered : c.Ordered
  check_eq : ∀ (s : Assignment V) (x : V → Int), (∀ v ∈ scope, s v = some (x v)) →
    c.check s = .ok (c.isSatisfiedBy (scope.map x))

theorem exists_captures (hne : scope ≠ []) (hd : scope.Nodup)
    (hmax : scope.length ≤ maxEnumeratedArity) (t : Vartype) (f : List Int → Bool) :
    ∃ c, ofPredicate scope t f = .ok c ∧ c.Captures scope t f := by
  have hmem : ∀ values, values ∈ ((List.range (Nat.pow 2 scope.length)).map
      (configurationOf t scope.length)).filter f ↔
        values.length = scope.length ∧ (∀ x ∈ values, x ∈ t.values) ∧ f values = true := by
    intro values
    rw [← and_assoc, ← exists_configurationOf_eq_iff (t := t), List.mem_filter, List.mem_map]
    simp only [List.mem_range]
    rfl
  obtain ⟨c, hc⟩ := exists_ofConfigurations (t := t) hne hd fun values hvalues => by
    obtain ⟨hlength, hdomain, -⟩ := (hmem values).1 hvalues
    refine fault?_eq_none_iff.2 ⟨hlength, fun x hx => ?_⟩
    obtain ⟨b, rfl⟩ := Vartype.mem_values_iff.1 (hdomain x hx)
    rw [Vartype.bit?_value]
    rfl
  obtain ⟨-, hlabel, hvartype, hscope, hconfigurations⟩ := of_ofConfigurations hc
  have hordered : c.Ordered := by
    rw [Ordered, hconfigurations]
    exact pairwise_sortedDistinct _
  have hconfiguration : ∀ values, values ∈ c.configurations ↔ values.length = scope.length ∧
      (∀ x ∈ values, x ∈ t.values) ∧ f values = true := by
    intro values
    rw [hconfigurations, mem_sortedDistinct, hmem]
  refine ⟨c, (if_neg (not_lt.2 hmax)).trans hc, hlabel, hvartype, hscope,
    fun values => isSatisfiedBy_iff.trans (hconfiguration values), hconfiguration,
    hordered.imp ne_of_lt, hordered, fun s x hx => ?_⟩
  rw [check, hscope, mapM_valueOf hx]
  rfl

inductive Built : Constraint V → Prop
  | ofConfigurations {scope : List V} {t : Vartype} {l : List (List Int)} {c : Constraint V} :
    ofConfigurations scope t l = .ok c → Built c
  | ofPredicate {scope : List V} {t : Vartype} {f : List Int → Bool} {c : Constraint V} :
    ofPredicate scope t f = .ok c → Built c
  | withLabel {c : Constraint V} (s : String) : Built c → Built (c.withLabel s)

theorem ofConfigurations_of_ofPredicate (h : ofPredicate scope t f = .ok c) :
    ∃ l, ofConfigurations scope t l = .ok c := by
  rw [ofPredicate] at h
  split at h
  · cases h
  · exact ⟨_, h⟩

theorem Built.scope_ne_nil_and_ordered (h : c.Built) : c.scope ≠ [] ∧ c.Ordered := by
  have hmade : ∀ {scope : List V} {t l} {c : Constraint V}, Constraint.ofConfigurations scope t l = .ok c →
      c.scope ≠ [] ∧ c.Ordered := by
    intro scope t l c h
    obtain ⟨hne, -, -, hscope, hconfigurations⟩ := of_ofConfigurations h
    rw [hscope, Ordered, hconfigurations]
    exact ⟨hne, pairwise_sortedDistinct l⟩
  induction h with
  | ofConfigurations h => exact hmade h
  | ofPredicate h => exact hmade (ofConfigurations_of_ofPredicate h).choose_spec
  | withLabel s _ ih => exact ih

theorem Built.ofPredicate_isSatisfiedBy (h : c.Built) (hmax : c.arity ≤ maxEnumeratedArity) :
    Constraint.ofPredicate c.scope c.vartype c.isSatisfiedBy = .ok { c with label := none } := by
  obtain ⟨hne, hordered⟩ := h.scope_ne_nil_and_ordered
  obtain ⟨c', hc', hcaptures⟩ := exists_captures hne c.distinct hmax c.vartype c.isSatisfiedBy
  rw [hc']
  refine congrArg Except.ok (ext_of_ordered hcaptures.label_eq hcaptures.vartype_eq
    hcaptures.scope_eq hcaptures.ordered hordered fun values => ?_)
  rw [hcaptures.mem_configurations_iff, Constraint.isSatisfiedBy_iff]
  constructor
  · exact fun h => h.2.2
  · intro hvalues
    refine ⟨c.length_eq values hvalues, fun x hx => ?_, hvalues⟩
    obtain ⟨b, hb⟩ := Option.isSome_iff_exists.1 (c.inDomain values hvalues x hx)
    exact Vartype.mem_values_iff.2 ⟨b, Vartype.bit?_eq_some_iff.1 hb⟩

/-- A predicate on up to sixteen variables is captured by the constraint that is made from it, and
a constraint on that many variables comes back, but for its label, from what satisfies it. -/
theorem ofPredicate_captures :
    (∀ (scope : List V) (t : Vartype) (f : List Int → Bool), scope.Nodup → 1 ≤ scope.length →
      scope.length ≤ 16 → ∃ c, ofPredicate scope t f = .ok c ∧ c.Captures scope t f) ∧
    ∀ c : Constraint V, c.Built → c.arity ≤ 16 →
      ofPredicate c.scope c.vartype c.isSatisfiedBy = .ok { c with label := none } :=
  ⟨fun _ t f hd hlength hmax => exists_captures (List.ne_nil_of_length_pos hlength) hd hmax t f,
    fun _ hc hmax => hc.ofPredicate_isSatisfiedBy hmax⟩

theorem ofPredicate_captures_parity :
    let odd : List Int → Bool := fun values => values.count 1 % 2 == 1
    ∃ c : Constraint Nat, ofPredicate [2, 0, 1] .spin odd = .ok c ∧
      c.configurations = [[-1, -1, 1], [-1, 1, -1], [1, -1, -1], [1, 1, 1]] ∧
      c.Captures [2, 0, 1] .spin odd ∧
      ofPredicate [2, 0, 1] .spin (c.withLabel "parity").isSatisfiedBy = .ok c := by
  intro odd
  obtain ⟨hcaptures, hagain⟩ := ofPredicate_captures (V := Nat)
  obtain ⟨c, hc, h⟩ := hcaptures [2, 0, 1] .spin odd (by decide) (by decide) (by decide)
  have hrebuilt := hagain (c.withLabel "parity") (.withLabel "parity" (.ofPredicate hc)) (by
    rw [arity, withLabel, h.scope_eq]
    decide)
  refine ⟨c, hc, ?_, h, ?_⟩
  · refine List.Pairwise.eq_of_mem_iff h.ordered (by decide) fun values => ?_
    rw [h.mem_configurations_iff]
    constructor
    · rintro ⟨hlength, hdomain, hodd⟩
      obtain ⟨x, y, z, rfl⟩ := List.length_eq_three.1 hlength
      obtain ⟨hx, hy, hz⟩ : (x = -1 ∨ x = 1) ∧ (y = -1 ∨ y = 1) ∧ (z = -1 ∨ z = 1) := by
        simpa [Vartype.values, Vartype.value] using hdomain
      rcases hx with rfl | rfl <;> rcases hy with rfl | rfl <;> rcases hz with rfl | rfl <;>
        revert hodd <;> decide
    · intro hvalues
      fin_cases hvalues <;> decide
  · calc ofPredicate [2, 0, 1] .spin (c.withLabel "parity").isSatisfiedBy
        = ofPredicate c.scope c.vartype (c.withLabel "parity").isSatisfiedBy := by
          rw [h.scope_eq, h.vartype_eq]
      _ = .ok { c with label := none } := hrebuilt
      _ = .ok c := by rw [← h.label_eq]

end Construction

end Constraint

end BinaryQuadratic

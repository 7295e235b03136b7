import BinaryQuadratic.Proofs.Model.Assignment
import BinaryQuadratic.Proofs.Model.Labels

/-! A model is the polynomial that its history describes. Replaying a history adds up the terms that
its operations name, without any model, and every assignment has the replayed value as energy. -/

namespace BinaryQuadratic

open Coefficient Finset

namespace History

open Model

variable {V α : Type} [DecidableEq V] [Coefficient α] {m : Model V α}

theorem Start.wellFormed {s : Start V α} (h : s.model? = .ok m) : m.WellFormed := by
  cases s with
  | empty t => exact Except.ok.inj h ▸ wellFormed_empty t
  | qubo q => exact Except.ok.inj h ▸ wellFormed_ofQubo q
  | ising hs j => exact wellFormed_ofIsing h

theorem wellFormed_apply (h : m.WellFormed) (o : Operation V α) : (o.apply m).1.WellFormed := by
  cases o with
  | addVariable v b => exact h.addVariable v b
  | addVariables l => exact h.addVariables l
  | addInteraction u v b =>
    rw [Operation.apply]
    split
    · next he =>
      obtain ⟨huv, rfl⟩ := addInteraction_eq_ok_iff.1 he
      exact h.couple huv b
    · exact h
  | addInteractions l => exact h.addInteractions l
  | addOffset c => exact h.addOffset c
  | scale k => exact h.scale k

theorem vartype_apply (m : Model V α) (o : Operation V α) :
    (o.apply m).1.vartype = m.vartype := by
  cases o with
  | addVariables l => exact vartype_addVariables m l
  | addInteractions l => exact vartype_addInteractions m l
  | addInteraction u v b =>
    rw [Operation.apply]
    split
    · next he =>
      obtain ⟨-, rfl⟩ := addInteraction_eq_ok_iff.1 he
      rfl
    · rfl
  | _ => rfl

theorem Start.vartype_eq {s : Start V α} (h : s.model? = .ok m) : m.vartype = s.vartype := by
  cases s with
  | empty t =>
    obtain rfl := Except.ok.inj h
    rfl
  | qubo q =>
    obtain rfl := Except.ok.inj h
    exact vartype_ofQubo q
  | ising hs j =>
    obtain ⟨-, rfl⟩ := ofIsing_eq_ok_iff.1 h
    rw [vartype_addInteractions, vartype_addVariables]
    rfl

end History

variable {V α : Type} [Exact α]

namespace Model

variable {m : Model V α}

theorem evaluate_congr {x y : V → α} (h : ∀ v ∈ m.labels, x v = y v) :
    m.evaluate x = m.evaluate y := by
  refine polynomial_congr fun i hi => ?_
  have hi' : i < m.labels.length := m.length_labels.symm ▸ hi
  rw [labelAt?_eq, List.getElem?_eq_getElem hi']
  exact h _ (List.getElem_mem hi')

theorem labels_scale (m : Model V α) (k : α) : (m.scale k).labels = m.labels := m.linear.keys_map _

theorem biases_scale (m : Model V α) (k : α) : (m.scale k).biases = m.biases.map (· * k) :=
  m.linear.values_map _

theorem numVariables_scale (m : Model V α) (k : α) :
    (m.scale k).numVariables = m.numVariables := by
  rw [← length_labels, labels_scale, length_labels]

theorem bias_scale (m : Model V α) (k : α) (i : Nat) : (m.scale k).bias i = k * m.bias i := by
  rw [bias, biases_scale, bias, List.getD_eq_getElem?_getD, List.getD_eq_getElem?_getD,
    List.getElem?_map]
  cases m.biases[i]? <;> simp [mul_comm]

theorem weight_scale (m : Model V α) (k : α) (i j : Nat) :
    (m.scale k).weight i j = k * m.weight i j := by
  rw [weight, weight?_map_values (m := m) (f := (· * k)) rfl, weight]
  cases m.weight? i j <;> simp [mul_comm]

theorem polynomial_scale (m : Model V α) (k : α) (y : Nat → α) :
    (m.scale k).polynomial y = k * m.polynomial y := by
  have hoffset : (m.scale k).offset = k * m.offset := mul_comm ..
  simp only [polynomial, numVariables_scale, bias_scale, weight_scale, hoffset, mul_assoc,
    ← Finset.mul_sum]
  ring

theorem evaluate_scale (m : Model V α) (k : α) (x : V → α) :
    (m.scale k).evaluate x = k * m.evaluate x := by
  simp only [evaluate, labelAt?_eq, labels_scale, polynomial_scale]

theorem energyAt_scale (m : Model V α) (k : α) (s : PackedState) :
    (m.scale k).energyAt s = k * m.energyAt s := m.polynomial_scale k _

theorem WellFormed.energy_scale (h : m.WellFormed) {s : Assignment V}
    (hs : s.InDomain m.vartype m.labels) {e : α} (he : m.energy s = .ok e) (k : α) :
    (m.scale k).energy s = .ok (k * e) := by
  obtain rfl := Except.ok.inj ((h.energy_eq_energyAt hs).symm.trans he)
  rw [(h.scale k).energy_eq_energyAt (labels_scale m k ▸ hs), energyAt_scale, labels_scale]
  rfl

end Model

namespace History

def linearPart (l : List (V × α)) (x : V → α) : α := (l.map fun e => e.2 * x e.1).sum

def quadraticPart (l : List (V × V × α)) (x : V → α) : α :=
  (l.map fun e => e.2.2 * x e.1 * x e.2.1).sum

def Start.value (x : V → α) : Start V α → α
  | empty _ => 0
  | qubo q => quadraticPart q x
  | ising h j => linearPart h x + quadraticPart j x

variable [DecidableEq V]

def Operation.replay (x : V → α) (e : α) : Operation V α → α
  | addVariable v b => e + b * x v
  | addVariables l => e + linearPart l x
  | addInteraction u v b => if u = v then e else e + b * x u * x v
  | addInteractions l => e + quadraticPart (accepted l) x
  | addOffset c => e + c
  | scale k => k * e

/-- The polynomial that a history describes, at some values. -/
def value (h : History V α) (x : V → α) : α :=
  h.operations.foldl (Operation.replay x) (h.start.value x)

end History

namespace Model.WellFormed

open History

variable [DecidableEq V] {m : Model V α}

theorem evaluate_addVariables (h : m.WellFormed) (l : List (V × α)) (x : V → α) :
    (m.addVariables l).evaluate x = m.evaluate x + linearPart l x := by
  induction l generalizing m with
  | nil => exact (add_zero _).symm
  | cons e l ih =>
    have hrest := ih (h.addVariable e.1 e.2)
    rw [h.evaluate_addVariable, add_assoc] at hrest
    exact hrest

theorem evaluate_addInteractions (h : m.WellFormed) (l : List (V × V × α)) (x : V → α) :
    (m.addInteractions l).1.evaluate x = m.evaluate x + quadraticPart (accepted l) x := by
  induction l generalizing m with
  | nil => exact (add_zero _).symm
  | cons e l ih =>
    obtain ⟨u, v, b⟩ := e
    rw [Model.addInteractions, addInteraction]
    by_cases huv : u = v
    · simp [huv, accepted, quadraticPart]
    · have hrest := ih (h.couple huv b)
      rw [h.evaluate_couple huv, add_assoc] at hrest
      simpa [huv, accepted, quadraticPart] using hrest

theorem evaluate_addQuboEntry (h : m.WellFormed) {u v : V} (b : α) {x : V → α}
    (hx : x u * x u = x u) : (m.addQuboEntry u v b).evaluate x = m.evaluate x + b * x u * x v := by
  rw [Model.addQuboEntry]
  split
  · next huv =>
    subst huv
    rw [h.evaluate_addVariable, mul_assoc, hx]
  · next huv => exact h.evaluate_couple huv b x

end Model.WellFormed

namespace History

open Model

variable [DecidableEq V] {m : Model V α} {x : V → α}

theorem evaluate_ofQubo {q : List (V × V × α)} (hx : ∀ v ∈ ends q, x v * x v = x v) :
    (ofQubo q).evaluate x = quadraticPart q x := by
  have key : ∀ m : Model V α, m.WellFormed →
      (q.foldl (fun m e => m.addQuboEntry e.1 e.2.1 e.2.2) m).evaluate x =
        m.evaluate x + quadraticPart q x := by
    induction q with
    | nil => exact fun m _ => (add_zero _).symm
    | cons e q ih =>
      intro m hm
      have hrest := ih (fun v hv => hx v (by simp_all [ends])) _
        (hm.addQuboEntry e.1 e.2.1 e.2.2)
      rw [hm.evaluate_addQuboEntry e.2.2 (hx e.1 (by simp [ends])), add_assoc] at hrest
      exact hrest
  rw [ofQubo, key _ (wellFormed_empty .binary), evaluate_empty, zero_add]

theorem Start.evaluate_eq {s : Start V α} (hm : s.model? = .ok m)
    (hx : s.vartype = .binary → ∀ v ∈ s.mentions, x v * x v = x v) :
    m.evaluate x = s.value x := by
  cases s with
  | empty t =>
    obtain rfl := Except.ok.inj hm
    exact evaluate_empty t x
  | qubo q =>
    obtain rfl := Except.ok.inj hm
    exact evaluate_ofQubo (hx rfl)
  | ising h j =>
    obtain ⟨hj, rfl⟩ := ofIsing_eq_ok_iff.1 hm
    have hempty := wellFormed_empty (V := V) (α := α) .spin
    rw [(hempty.addVariables h).evaluate_addInteractions, hempty.evaluate_addVariables,
      evaluate_empty, zero_add, accepted_eq_self hj, Start.value]

theorem evaluate_apply (h : m.WellFormed) (o : Operation V α) (x : V → α) :
    (o.apply m).1.evaluate x = o.replay x (m.evaluate x) := by
  cases o with
  | addVariable v b => exact h.evaluate_addVariable v b x
  | addVariables l => exact h.evaluate_addVariables l x
  | addInteraction u v b =>
    rw [Operation.apply, addInteraction, Operation.replay]
    by_cases huv : u = v
    · simp [huv]
    · simpa [huv] using h.evaluate_couple huv b x
  | addInteractions l => exact h.evaluate_addInteractions l x
  | addOffset c => exact m.evaluate_addOffset c x
  | scale k => exact m.evaluate_scale k x

theorem run_eq (h : m.WellFormed) (ops : List (Operation V α)) :
    (run ops m).WellFormed ∧ (run ops m).vartype = m.vartype ∧
      ∀ x, (run ops m).evaluate x = ops.foldl (Operation.replay x) (m.evaluate x) := by
  induction ops generalizing m with
  | nil => exact ⟨h, rfl, fun _ => rfl⟩
  | cons o ops ih =>
    obtain ⟨hw, ht, heval⟩ := ih (wellFormed_apply h o)
    refine ⟨hw, ht.trans (vartype_apply m o), fun x => (heval x).trans ?_⟩
    rw [evaluate_apply h, List.foldl_cons]

theorem exists_model?_iff (h : History V α) :
    (∃ m, h.model? = .ok m) ↔ ∀ hs j, h.start = .ising hs j → ∀ e ∈ j, e.1 ≠ e.2.1 := by
  obtain ⟨start, ops⟩ := h
  cases start with
  | empty t => exact ⟨fun _ _ _ h => (nomatch h), fun _ => ⟨_, rfl⟩⟩
  | qubo q => exact ⟨fun _ _ _ h => (nomatch h), fun _ => ⟨_, rfl⟩⟩
  | ising hs j =>
    constructor
    · rintro ⟨m, hm⟩ _ _ ⟨⟩
      obtain ⟨first, hfirst, -⟩ := model?_eq_ok_iff.1 hm
      exact (ofIsing_eq_ok_iff.1 hfirst).1
    · intro hj
      exact ⟨_, model?_eq_ok_iff.2 ⟨_, ofIsing_eq_ok_iff.2 ⟨hj hs j rfl, rfl⟩, rfl⟩⟩

def valuesOf (s : Assignment V) : V → α := fun v => (((s v).getD 0 : Int) : α)

omit [DecidableEq V] in
theorem valuesOf_eq {s : Assignment V} {t : Vartype} {vs : List V} (hs : s.InDomain t vs) :
    ∀ v ∈ vs, (valuesOf s v : α) = ((t.value (s.bit t v) : Int) : α) := by
  intro v hv
  rw [valuesOf, hs.eq_value v hv, Option.getD_some]

/-- The model at the end of a history has the variables in the order of their first mention, and
every assignment in the domain has the value of the replayed polynomial as its energy. Only a start
from couplings fails, if one of them is of a variable with itself. -/
theorem energy_eq_value (h : History V α) :
    ((∃ m, h.model? = .ok m) ↔ ∀ hs j, h.start = .ising hs j → ∀ e ∈ j, e.1 ≠ e.2.1) ∧
    ∀ m, h.model? = .ok m → m.vartype = h.start.vartype ∧ m.labels = h.mentions.eraseDups ∧
      ∀ s : Assignment V, s.InDomain m.vartype m.labels →
        m.energy s = .ok (h.value (valuesOf s)) := by
  refine ⟨h.exists_model?_iff, fun m hm => ?_⟩
  obtain ⟨first, hfirst, hrun⟩ := model?_eq_ok_iff.1 hm
  obtain ⟨hw, ht, heval⟩ := run_eq (Start.wellFormed hfirst) h.operations
  rw [hrun] at hw ht heval
  rw [Start.vartype_eq hfirst] at ht
  have hlabels := labels_eq hm
  refine ⟨ht, hlabels, fun s hs => ?_⟩
  have hvalues := valuesOf_eq (α := α) hs
  -- a bit equals its square, which the diagonal of the start relies on
  have hsquare : h.start.vartype = .binary → ∀ v ∈ h.start.mentions,
      (valuesOf s v * valuesOf s v : α) = valuesOf s v := fun hbinary v hv => by
    have hmem : v ∈ m.labels := by
      rw [hlabels, List.mem_eraseDups, mentions]
      exact List.mem_append_left _ hv
    rw [hvalues v hmem, ht, hbinary, value_binary]
    split <;> simp
  rw [hw.energy_eq hs, ← evaluate_congr hvalues, heval, Start.evaluate_eq hfirst hsquare]
  rfl

theorem energy_eq_value_mixed_history :
    let h : History Nat ℝ :=
      ⟨.qubo [(0, 0, 1), (0, 1, 2), (1, 0, 1), (1, 1, -1)],
        [.addInteraction 2 2 5, .addInteractions [(1, 2, 4), (3, 3, 1), (0, 3, 7)], .scale 2,
          .addOffset 3, .addVariable 4 1]⟩
    ∃ m, h.model? = .ok m ∧ m.labels = [0, 1, 2, 4] ∧
      Assignment.InDomain (fun _ => some 1) m.vartype m.labels ∧
      m.energy (fun _ => some 1) = .ok 18 := by
  intro h
  obtain ⟨hsucceeds, hmodel⟩ := energy_eq_value h
  obtain ⟨m, hm⟩ := hsucceeds.2 fun _ _ hstart => nomatch hstart
  obtain ⟨ht, hlabels, henergy⟩ := hmodel m hm
  have hdomain : Assignment.InDomain (fun _ => some 1) m.vartype m.labels := fun _ _ =>
    ⟨true, rfl⟩
  refine ⟨m, hm, hlabels.trans rfl, hdomain, (henergy _ hdomain).trans ?_⟩
  norm_num [h, value, Start.value, Operation.replay, quadraticPart, accepted, valuesOf]

end History

end BinaryQuadratic

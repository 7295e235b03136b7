import BinaryQuadratic.Proofs.Model.History
import BinaryQuadratic.Proofs.Search.GroundStates
import BinaryQuadratic.Problem.MaxCut
import BinaryQuadratic.Search.MaxCut

/-! Three ways to the maximum cut: the partitions of the numbered nodes, the energies of the model
and the labels of an assignment. All of them count the edges that cross from one side to the other,
loops never and repeated edges each time. -/

namespace BinaryQuadratic

open Coefficient

variable {V α : Type} [DecidableEq V]

namespace MaxCut

def endpoints (edges : List (V × V)) : List V := edges.flatMap fun e => [e.1, e.2]

def crossing (b : V → Bool) (edges : List (V × V)) : Nat := edges.countP fun e => b e.1 != b e.2

variable {edges : List (V × V)} {b b' : V → Bool}

omit [DecidableEq V] in
theorem mem_endpoints {e : V × V} (he : e ∈ edges) :
    e.1 ∈ endpoints edges ∧ e.2 ∈ endpoints edges :=
  ⟨List.mem_flatMap.2 ⟨e, he, by simp⟩, List.mem_flatMap.2 ⟨e, he, by simp⟩⟩

omit [DecidableEq V] in
theorem crossing_congr (h : ∀ v ∈ endpoints edges, b v = b' v) :
    crossing b edges = crossing b' edges := by
  refine List.countP_congr fun e he => ?_
  obtain ⟨h1, h2⟩ := mem_endpoints he
  rw [h _ h1, h _ h2]

omit [DecidableEq V] in
theorem crossing_le (b : V → Bool) (edges : List (V × V)) : crossing b edges ≤ edges.length :=
  List.countP_le_length

omit [DecidableEq V] in
theorem cutSize_eq {t : Vartype} {s : Assignment V}
    (h : ∀ v ∈ endpoints edges, s v = some (t.value (b v))) :
    cutSize s edges = .ok (crossing b edges) := by
  induction edges with
  | nil => rfl
  | cons e edges ih =>
    obtain ⟨u, v⟩ := e
    have hu : valueOf s u = .ok (t.value (b u)) := by
      rw [valueOf, h u (by simp [endpoints])]
    have hv : valueOf s v = .ok (t.value (b v)) := by
      rw [valueOf, h v (by simp [endpoints])]
    have hrest := ih fun w hw => h w (by simp_all [endpoints])
    have hside : t.value (b u) = t.value (b v) ↔ b u = b v :=
      ⟨t.value_injective, congrArg t.value⟩
    rw [cutSize, hu, hv, hrest]
    show Except.ok (if t.value (b u) = t.value (b v) then _ else _) = _
    simp only [hside, crossing, List.countP_cons]
    by_cases huv : b u = b v <;> simp [huv]

section Model

theorem eraseDups_ends_edgeTerms [Coefficient α] (edges : List (V × V)) :
    (History.ends (edges.flatMap (edgeTerms (α := α)))).eraseDups =
      (endpoints edges).eraseDups := by
  have hedge : ∀ (l : List V) (u v : V),
      (l ++ [u, u, v, v, u, v]).eraseDups = (l ++ [u, v]).eraseDups := by
    intro l u v
    have hsplit : l ++ [u, u, v, v, u, v] = l ++ [u] ++ [u] ++ [v] ++ [v] ++ [u] ++ [v] := by simp
    have hsplit' : l ++ [u, v] = l ++ [u] ++ [v] := by simp
    -- what was mentioned once is not new the next time
    simp only [hsplit, hsplit', eraseDups_concat, List.mem_append, List.mem_singleton, or_true,
      true_or, or_assoc, or_self, if_true]
  induction edges using List.reverseRecOn with
  | nil => rfl
  | append_singleton edges e ih =>
    have hterms : History.ends ((edges ++ [e]).flatMap (edgeTerms (α := α))) =
        History.ends (edges.flatMap (edgeTerms (α := α))) ++
          [e.1, e.1, e.2, e.2, e.1, e.2] := by
      simp [History.ends, edgeTerms]
    have hends : endpoints (edges ++ [e]) = endpoints edges ++ [e.1, e.2] := by
      simp [endpoints]
    rw [hterms, hends, ← eraseDups_eraseDups_append, ih, eraseDups_eraseDups_append, hedge]

theorem labels_model [Coefficient α] (edges : List (V × V)) :
    (model edges : Model V α).labels = (endpoints edges).eraseDups := by
  rw [model, Model.mentions_ofQubo]
  exact eraseDups_ends_edgeTerms edges

variable [Exact α]

theorem evaluate_model (b : V → Bool) (edges : List (V × V)) :
    (model edges : Model V α).evaluate (bitValues b) = -(crossing b edges : α) := by
  have hsquare : ∀ v, (bitValues b v * bitValues b v : α) = bitValues b v := fun v => by
    unfold bitValues
    split <;> simp
  have hedge : ∀ e : V × V, History.quadraticPart (edgeTerms e) (bitValues b) =
      -(if b e.1 != b e.2 then 1 else 0 : α) := by
    intro e
    cases h1 : b e.1 <;> cases h2 : b e.2 <;>
      norm_num [History.quadraticPart, edgeTerms, bitValues, h1, h2]
  rw [model, History.evaluate_ofQubo fun v _ => hsquare v]
  induction edges with
  | nil => simp [History.quadraticPart, crossing]
  | cons e edges ih =>
    have hsplit : History.quadraticPart ((e :: edges).flatMap edgeTerms) (bitValues b) =
        History.quadraticPart (edgeTerms e) (bitValues b) +
          (History.quadraticPart (edges.flatMap edgeTerms) (bitValues b) : α) := by
      simp [History.quadraticPart]
    rw [hsplit, ih, hedge, crossing, crossing, List.countP_cons]
    push_cast
    ring

end Model

end MaxCut

namespace Search

open MaxCut

variable {edges : List (V × V)}

theorem keys_nodes (edges : List (V × V)) : (nodes edges).keys = (endpoints edges).eraseDups :=
  OrderedSet.keys_addAll ∅ _

theorem size_nodes (edges : List (V × V)) :
    (nodes edges).size = (endpoints edges).eraseDups.length := by
  rw [← OrderedMap.length_keys, keys_nodes]

def nodePosition (edges : List (V × V)) (v : V) : Nat := ((nodes edges).indexOf? v).getD 0

theorem indexOf?_nodes {v : V} (hv : v ∈ endpoints edges) :
    (nodes edges).indexOf? v = some (nodePosition edges v) := by
  cases hi : (nodes edges).indexOf? v with
  | none =>
    rw [OrderedMap.indexOf?_eq_none_iff, keys_nodes, List.mem_eraseDups] at hi
    exact absurd hv hi
  | some i => rw [nodePosition, hi, Option.getD_some]

theorem numberedEdges_eq (edges : List (V × V)) : numberedEdges edges =
    edges.map fun e => (nodePosition edges e.1, nodePosition edges e.2) := by
  rw [numberedEdges, ← List.filterMap_eq_map]
  refine List.filterMap_congr fun e he => ?_
  obtain ⟨h1, h2⟩ := mem_endpoints he
  simp [indexOf?_nodes h1, indexOf?_nodes h2]

theorem cutOf_numberedEdges (edges : List (V × V)) (k : Nat) :
    cutOf (numberedEdges edges) k = crossing (fun v => k.testBit (nodePosition edges v)) edges := by
  rw [numberedEdges_eq, cutOf, List.countP_map]
  rfl

theorem exists_cutOf_eq (b : V → Bool) (edges : List (V × V)) :
    ∃ k < Nat.pow 2 (nodes edges).size, cutOf (numberedEdges edges) k = crossing b edges := by
  have hlen : ((nodes edges).keys.map b).length = (nodes edges).size := by simp
  refine ⟨spelled ((nodes edges).keys.map b), hlen ▸ spelled_lt _, ?_⟩
  rw [cutOf_numberedEdges]
  refine crossing_congr fun v hv => ?_
  have hkey := OrderedMap.indexOf?_eq_some_iff.1 (indexOf?_nodes hv)
  simp [testBit_spelled, List.getD_eq_getElem?_getD, hkey]

theorem foldl_max_range (f : Nat → Nat) (n : Nat) :
    (∀ k < n, f k ≤ (List.range n).foldl (fun best k => max best (f k)) 0) ∧
      ((List.range n).foldl (fun best k => max best (f k)) 0 = 0 ∨
        ∃ k < n, f k = (List.range n).foldl (fun best k => max best (f k)) 0) := by
  induction n with
  | zero => exact ⟨fun k hk => absurd hk (Nat.not_lt_zero k), .inl rfl⟩
  | succ n ih =>
    rw [List.range_succ, List.foldl_append, List.foldl_cons, List.foldl_nil]
    set best := (List.range n).foldl (fun best k => max best (f k)) 0
    obtain ⟨hle, hattained⟩ := ih
    refine ⟨fun k hk => ?_, ?_⟩
    · obtain hk | rfl := Nat.lt_succ_iff_lt_or_eq.1 hk
      · exact (hle k hk).trans (le_max_left _ _)
      · exact le_max_right _ _
    · obtain hnew | hold := le_total best (f n)
      · exact .inr ⟨n, n.lt_succ_self, (max_eq_right hnew).symm⟩
      · rw [max_eq_left hold]
        exact hattained.imp_right fun ⟨k, hk, heq⟩ => ⟨k, hk.trans n.lt_succ_self, heq⟩

theorem exists_maxCut (h : (endpoints edges).eraseDups.length ≤ maxEnumeratedVariables) :
    ∃ c, maxCut edges = .ok c ∧ IsGreatest (Set.range fun b : V → Bool => crossing b edges) c := by
  obtain ⟨hle, hattained⟩ := foldl_max_range (cutOf (numberedEdges edges))
    (Nat.pow 2 (nodes edges).size)
  rw [← size_nodes] at h
  refine ⟨_, by rw [maxCut, if_neg (not_lt.2 h)], ?_, ?_⟩
  · obtain hzero | ⟨k, -, hk⟩ := hattained
    · rw [hzero]
      exact ⟨fun _ => false, by simp [crossing]⟩
    · exact ⟨_, (cutOf_numberedEdges edges k).symm.trans hk⟩
  · rintro _ ⟨b, rfl⟩
    obtain ⟨k, hk, hb⟩ := exists_cutOf_eq b edges
    exact hb.symm.trans_le (hle k hk)

end Search

namespace MaxCut

open Search SampleSet

variable [Exact α] {edges : List (V × V)}

theorem wellFormed_model (edges : List (V × V)) : (model edges : Model V α).WellFormed :=
  Model.wellFormed_ofQubo _

theorem vartype_model (edges : List (V × V)) : (model edges : Model V α).vartype = .binary :=
  Model.vartype_ofQubo _

theorem energyAt_model (b : V → Bool) (edges : List (V × V)) :
    (model edges : Model V α).energyAt (.ofBits ((model edges : Model V α).labels.map b)) =
      -(crossing b edges : α) := by
  rw [Model.energyAt_ofBits, vartype_model]
  simp only [value_binary]
  exact evaluate_model b edges

theorem energy_eq_of_enumerated {t : Vartype} {g : GroundStates V α} {c : Nat}
    (hg : Enumerated ((model edges : Model V α).toVartype t) g)
    (hc : IsGreatest (Set.range fun b : V → Bool => crossing b edges) c) : g.energy = -(c : α) := by
  have henergy : ∀ b : V → Bool, ((model edges : Model V α).toVartype t).energyAt
      (.ofBits (((model edges : Model V α).toVartype t).labels.map b)) = -(crossing b edges : α) :=
    fun b => by
      rw [(wellFormed_model edges).energyAt_toVartype, (wellFormed_model edges).labels_toVartype,
        energyAt_model]
  have hleast := hg.isLeast
  simp only [henergy] at hleast
  refine hleast.unique ⟨?_, ?_⟩
  · obtain ⟨b, hb⟩ := hc.1
    exact ⟨b, by rw [← hb]⟩
  · rintro _ ⟨b, rfl⟩
    have hle : crossing b edges ≤ c := hc.2 ⟨b, rfl⟩
    simpa using hle

theorem tolerance_neg (c : Nat) : tolerance (-(c : α)) = max (c : α) 1 / 1000000000 := by
  rw [tolerance_eq, abs_neg, Nat.abs_cast, max_comm]
  norm_num

/-- Sizes of cuts are whole numbers, so that only equal ones are within the tolerance as long as it
is less than one. -/
theorem sub_le_tolerance_iff {n c : Nat} (hle : n ≤ c) (hc : c < 1000000000) :
    -(n : α) - -(c : α) ≤ tolerance (-(c : α)) ↔ n = c := by
  have hmax : max (c : α) 1 < 1000000000 := max_lt (by exact_mod_cast hc) (by norm_num)
  have hnonneg : (0 : α) ≤ max (c : α) 1 := zero_le_one.trans (le_max_right _ _)
  rw [tolerance_neg]
  constructor
  · intro h
    by_contra hne
    have hgap : (n : α) + 1 ≤ c := by exact_mod_cast lt_of_le_of_ne hle hne
    have hone : max (c : α) 1 / 1000000000 < 1 := (div_lt_one (by norm_num)).2 hmax
    linarith
  · rintro rfl
    rw [sub_self]
    exact div_nonneg hnonneg (by norm_num)

theorem mem_samples_iff {g : GroundStates V α} {c : Nat} (hg : Enumerated (model edges) g)
    (hc : IsGreatest (Set.range fun b : V → Bool => crossing b edges) c)
    (henergy : g.energy = -(c : α)) (hlength : edges.length < 1000000000) (x : Sample V) :
    x ∈ g.samples ↔ x.keys = (endpoints edges).eraseDups ∧
      x.assignment.InDomain .binary (endpoints edges) ∧ cutSize x.assignment edges = .ok c := by
  have hsample : ∀ b : V → Bool, sampleOf (model edges : Model V α)
      (.ofBits ((model edges : Model V α).labels.map b)) = x ↔
        x.keys = (endpoints edges).eraseDups ∧
          ∀ v ∈ endpoints edges, x.assignment v = some (Vartype.binary.value (b v)) := fun b => by
    rw [sampleOf_ofBits_eq_iff, vartype_model, labels_model]
    simp only [List.mem_eraseDups]
  have hlt : c < 1000000000 := by
    obtain ⟨b, hb⟩ := hc.1
    exact hb ▸ (crossing_le b edges).trans_lt hlength
  simp only [hg.mem_samples_iff, hsample, energyAt_model, henergy]
  constructor
  · rintro ⟨b, ⟨hkeys, hvalues⟩, hle⟩
    have hcrossing := (sub_le_tolerance_iff (hc.2 ⟨b, rfl⟩) hlt).1 hle
    exact ⟨hkeys, fun v hv => ⟨b v, hvalues v hv⟩, hcrossing ▸ cutSize_eq hvalues⟩
  · rintro ⟨hkeys, hdomain, hcut⟩
    have hvalues := hdomain.eq_value
    have hcrossing : crossing (x.assignment.bit .binary) edges = c :=
      Except.ok.inj ((cutSize_eq hvalues).symm.trans hcut)
    exact ⟨_, ⟨hkeys, hvalues⟩, (sub_le_tolerance_iff hcrossing.le hlt).2 hcrossing⟩

/-- The largest number of edges between the two sides of a partition, the largest cut of an
assignment and minus the lowest energy are the same, and the assignments of that energy are the
largest cuts. -/
theorem computations_agree (edges : List (V × V))
    (hnodes : (endpoints edges).eraseDups.length ≤ maxEnumeratedVariables) :
    ∃ c, maxCut edges = .ok c ∧
      IsGreatest {n | ∃ s : Assignment V, s.InDomain .binary (endpoints edges) ∧
        cutSize s edges = .ok n} c ∧
      (∃ g, groundStates (model edges : Model V α) = .ok g ∧ g.energy = -(c : α) ∧
        (edges.length < 1000000000 → g.samples.Nodup ∧ ∀ x : Sample V, x ∈ g.samples ↔
          x.keys = (endpoints edges).eraseDups ∧
            x.assignment.InDomain .binary (endpoints edges) ∧
              cutSize x.assignment edges = .ok c)) ∧
      ∃ g, groundStates ((model edges : Model V α).toVartype .spin) = .ok g ∧
        g.energy = -(c : α) := by
  have hw : (model edges : Model V α).WellFormed := wellFormed_model edges
  have hn : (model edges : Model V α).numVariables ≤ maxEnumeratedVariables := by
    rwa [← Model.length_labels, labels_model]
  obtain ⟨c, hmaxCut, hc⟩ := exists_maxCut hnodes
  obtain ⟨g, hground, hg⟩ := exists_groundStates hw hn
  obtain ⟨g', hground', hg'⟩ := exists_groundStates (hw.toVartype .spin)
    (hw.numVariables_toVartype .spin ▸ hn)
  have henergy : g.energy = -(c : α) := by
    have hsame : (model edges : Model V α).toVartype .binary = model edges := by
      rw [← vartype_model (α := α) edges, Model.toVartype_vartype]
    exact energy_eq_of_enumerated (t := .binary) (hsame.symm ▸ hg) hc
  refine ⟨c, hmaxCut, ⟨?_, ?_⟩, ⟨g, hground, henergy, fun hlength => ⟨hg.nodup_samples,
    mem_samples_iff hg hc henergy hlength⟩⟩, g', hground', energy_eq_of_enumerated hg' hc⟩
  · obtain ⟨b, rfl⟩ := hc.1
    exact ⟨fun v => some (Vartype.binary.value (b v)), fun v _ => ⟨b v, rfl⟩,
      cutSize_eq fun _ _ => rfl⟩
  · rintro n ⟨s, hs, hn⟩
    obtain rfl := Except.ok.inj ((cutSize_eq hs.eq_value).symm.trans hn)
    exact hc.2 ⟨_, rfl⟩

theorem computations_agree_triangle :
    let edges : List (Nat × Nat) := [(0, 1), (1, 2), (2, 0), (0, 0), (0, 1)]
    (endpoints edges).eraseDups.length ≤ maxEnumeratedVariables ∧ maxCut edges = .ok 3 ∧
      ∃ g, groundStates (model edges : Model Nat ℝ) = .ok g ∧ g.energy = -3 ∧
        ∀ x : Sample Nat, x ∈ g.samples ↔ x.keys = [0, 1, 2] ∧
          x.assignment.InDomain .binary (endpoints edges) ∧
            cutSize x.assignment edges = .ok 3 := by
  intro edges
  have hnodes : (endpoints edges).eraseDups.length ≤ maxEnumeratedVariables := by decide
  have hthree : maxCut edges = .ok 3 := by decide
  obtain ⟨c, hc, -, ⟨g, hground, henergy, hsamples⟩, -⟩ :=
    computations_agree (α := ℝ) edges hnodes
  obtain rfl : 3 = c := Except.ok.inj (hthree.symm.trans hc)
  exact ⟨hnodes, hthree, g, hground, by simpa using henergy, (hsamples (by decide)).2⟩

section Assignments

variable {edges' : List (V × V)} {b : V → Bool} {s : Assignment V} {t : Vartype}

omit [DecidableEq V] in
theorem crossing_append (b : V → Bool) (edges edges' : List (V × V)) :
    crossing b (edges ++ edges') = crossing b edges + crossing b edges' :=
  List.countP_append

omit [DecidableEq V] in
theorem crossing_perm (h : edges.Perm edges') : crossing b edges = crossing b edges' :=
  h.countP_eq _

omit [DecidableEq V] in
theorem endpoints_append (edges edges' : List (V × V)) :
    endpoints (edges ++ edges') = endpoints edges ++ endpoints edges' :=
  List.flatMap_append

theorem energy_toVartype_model (hs : s.InDomain t (endpoints edges)) :
    ((model edges : Model V α).toVartype t).energy s =
      .ok (-(crossing (s.bit t) edges : α)) := by
  have hs' : s.InDomain t (model edges : Model V α).labels := by
    intro v hv
    rw [labels_model, List.mem_eraseDups] at hv
    exact hs v hv
  rw [(wellFormed_model edges).energy_toVartype t hs', vartype_model]
  simp only [value_binary]
  exact congrArg Except.ok (evaluate_model (s.bit t) edges)

theorem energy_model (hs : s.InDomain .binary (endpoints edges)) :
    (model edges : Model V α).energy s = .ok (-(crossing (s.bit .binary) edges : α)) := by
  have hsame : (model edges : Model V α).toVartype .binary = model edges := by
    rw [← vartype_model (α := α) edges, Model.toVartype_vartype]
  rw [← hsame]
  exact energy_toVartype_model hs

/-- The energy of an assignment in either domain is minus the number of edges that it cuts. Further
edges lower it by what is cut of them, and the order of the edges does not matter. -/
theorem energy_eq_neg_cutSize (edges : List (V × V)) (s : Assignment V) :
    (s.InDomain .binary (endpoints edges) → ∃ c, cutSize s edges = .ok c ∧
      (model edges : Model V α).energy s = .ok (-(c : α))) ∧
    (s.InDomain .spin (endpoints edges) → ∃ c, cutSize s edges = .ok c ∧
      ((model edges : Model V α).toVartype .spin).energy s = .ok (-(c : α))) ∧
    (∀ (t : Vartype) (edges' : List (V × V)),
      s.InDomain t (endpoints edges) → s.InDomain t (endpoints edges') →
        ∃ c c', cutSize s edges = .ok c ∧ cutSize s edges' = .ok c' ∧
          cutSize s (edges ++ edges') = .ok (c + c') ∧
          ((model edges : Model V α).toVartype t).energy s = .ok (-(c : α)) ∧
          ((model (edges ++ edges') : Model V α).toVartype t).energy s = .ok (-(c : α) - c')) ∧
    ∀ (t : Vartype) (edges' : List (V × V)), edges.Perm edges' →
      s.InDomain t (endpoints edges) → cutSize s edges' = cutSize s edges ∧
        ((model edges' : Model V α).toVartype t).energy s =
          ((model edges : Model V α).toVartype t).energy s := by
  refine ⟨fun hs => ⟨_, cutSize_eq hs.eq_value, energy_model hs⟩,
    fun hs => ⟨_, cutSize_eq hs.eq_value, energy_toVartype_model hs⟩,
    fun t edges' hs hs' => ?_, fun t edges' hperm hs => ?_⟩
  · have hboth : s.InDomain t (endpoints (edges ++ edges')) := by
      rw [endpoints_append]
      exact List.forall_mem_append.2 ⟨hs, hs'⟩
    have hcut := cutSize_eq hboth.eq_value
    have henergy := energy_toVartype_model (α := α) hboth
    rw [crossing_append] at hcut henergy
    refine ⟨_, _, cutSize_eq hs.eq_value, cutSize_eq hs'.eq_value, hcut,
      energy_toVartype_model hs, ?_⟩
    rw [henergy, Nat.cast_add, neg_add']
  · have hs' : s.InDomain t (endpoints edges') := fun v hv =>
      hs v ((hperm.flatMap_right _).mem_iff.2 hv)
    rw [cutSize_eq hs.eq_value, cutSize_eq hs'.eq_value, energy_toVartype_model hs,
      energy_toVartype_model hs', crossing_perm hperm]
    exact ⟨rfl, rfl⟩

theorem energy_eq_neg_cutSize_multigraph :
    let edges : List (Nat × Nat) := [(0, 1), (1, 0), (2, 2), (1, 2), (0, 1)]
    let s : Assignment Nat := fun v => some (if v = 0 then -1 else 1)
    s.InDomain .spin (endpoints edges) ∧ cutSize s edges = .ok 3 ∧
      ((model edges : Model Nat ℝ).toVartype .spin).energy s = .ok (-3) ∧
      ((model (edges ++ edges) : Model Nat ℝ).toVartype .spin).energy s = .ok (-6) := by
  intro edges s
  have hdomain : s.InDomain .spin (endpoints edges) := by
    unfold Assignment.InDomain
    decide
  have hthree : cutSize s edges = .ok 3 := by decide
  obtain ⟨-, hspin, happend, -⟩ := energy_eq_neg_cutSize (α := ℝ) edges s
  obtain ⟨c, hc, henergy⟩ := hspin hdomain
  obtain ⟨d, d', hd, hd', -, -, htwice⟩ := happend .spin edges hdomain hdomain
  obtain rfl : 3 = c := Except.ok.inj (hthree.symm.trans hc)
  obtain rfl : 3 = d := Except.ok.inj (hthree.symm.trans hd)
  obtain rfl : 3 = d' := Except.ok.inj (hthree.symm.trans hd')
  refine ⟨hdomain, hthree, by simpa using henergy, ?_⟩
  rw [htwice]
  norm_num

end Assignments

end MaxCut

end BinaryQuadratic

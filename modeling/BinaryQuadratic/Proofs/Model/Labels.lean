import Mathlib.Data.List.TakeWhile
import BinaryQuadratic.Model.History
import BinaryQuadratic.Proofs.Model.WellFormed

/-! The labels of a model are the variables mentioned so far, in the order of their first mention,
so that an operation never moves a variable that is already there. -/

namespace BinaryQuadratic

section FirstMentions

variable {V : Type} [DecidableEq V]

theorem eraseDups_concat (l : List V) (v : V) :
    (l ++ [v]).eraseDups = if v ∈ l then l.eraseDups else l.eraseDups ++ [v] := by
  rw [List.eraseDups_append]
  by_cases h : v ∈ l <;> simp [List.removeAll, List.eraseDups_cons, h]

theorem nodup_eraseDups (l : List V) : l.eraseDups.Nodup := by
  induction l using List.reverseRecOn with
  | nil => exact List.nodup_nil
  | append_singleton l v ih =>
    rw [eraseDups_concat]
    split
    · exact ih
    · next hv => exact ih.append (List.nodup_singleton v) (by simpa using hv)

theorem eraseDups_of_nodup {l : List V} (h : l.Nodup) : l.eraseDups = l := by
  induction l using List.reverseRecOn with
  | nil => rfl
  | append_singleton l v ih =>
    obtain ⟨hl, -, hdisjoint⟩ := List.nodup_append.1 h
    have hv : v ∉ l := fun hv => hdisjoint v hv v (by simp) rfl
    rw [eraseDups_concat, if_neg hv, ih hl]

theorem eraseDups_eraseDups_append (l l' : List V) :
    (l.eraseDups ++ l').eraseDups = (l ++ l').eraseDups := by
  have hseen : l'.removeAll l.eraseDups = l'.removeAll l := by
    simp [List.removeAll]
  rw [List.eraseDups_append, List.eraseDups_append, eraseDups_of_nodup (nodup_eraseDups l), hseen]

theorem prefix_eraseDups_append {l : List V} (h : l.Nodup) (l' : List V) :
    l <+: (l ++ l').eraseDups := by
  rw [List.eraseDups_append, eraseDups_of_nodup h]
  exact List.prefix_append _ _

theorem pairwise_idxOf_eraseDups (l : List V) :
    l.eraseDups.Pairwise fun u v => l.idxOf u < l.idxOf v := by
  induction l using List.reverseRecOn with
  | nil => exact .nil
  | append_singleton l v ih =>
    have hearlier : l.eraseDups.Pairwise fun u w => (l ++ [v]).idxOf u < (l ++ [v]).idxOf w :=
      ih.imp_of_mem fun {u w} hu hw huw => by
        rwa [List.idxOf_append_of_mem (List.mem_eraseDups.1 hu),
          List.idxOf_append_of_mem (List.mem_eraseDups.1 hw)]
    rw [eraseDups_concat]
    split
    · exact hearlier
    · next hv =>
      refine List.pairwise_append.2 ⟨hearlier, List.pairwise_singleton _ _, fun u hu w hw => ?_⟩
      have hu' : u ∈ l := List.mem_eraseDups.1 hu
      obtain rfl := List.mem_singleton.1 hw
      rw [List.idxOf_append_of_mem hu', List.idxOf_append_of_notMem hv]
      exact (List.idxOf_lt_length_of_mem hu').trans_le (Nat.le_add_right _ _)

theorem OrderedSet.keys_addAll (s : OrderedSet V) (vs : List V) :
    (OrderedSet.addAll s vs).keys = (s.keys ++ vs).eraseDups := by
  have hnodup : s.keys.Nodup := s.nodup
  induction vs generalizing s with
  | nil => exact (eraseDups_of_nodup hnodup).symm.trans (congrArg _ (List.append_nil _).symm)
  | cons v vs ih =>
    have hadd : (OrderedSet.add s v).keys = (s.keys ++ [v]).eraseDups := by
      rw [OrderedSet.add, OrderedMap.keys_insert, eraseDups_concat, eraseDups_of_nodup hnodup]
    rw [OrderedSet.addAll, List.foldl_cons]
    refine (ih _ (OrderedMap.nodup _)).trans ?_
    rw [hadd, eraseDups_eraseDups_append, List.append_assoc]
    rfl

end FirstMentions

namespace Model

variable {V α : Type} [DecidableEq V] [Coefficient α] {u v : V} {m m' : Model V α}

def Mentions (m m' : Model V α) (vs : List V) : Prop := m'.labels = (m.labels ++ vs).eraseDups

omit [Coefficient α] in
theorem Mentions.of_labels_eq (h : m'.labels = m.labels) : m.Mentions m' [] := by
  rw [Mentions, List.append_nil, eraseDups_of_nodup m.nodup_labels, h]

omit [Coefficient α] in
theorem Mentions.trans {m'' : Model V α} {vs ws : List V} (h : m.Mentions m' vs)
    (h' : m'.Mentions m'' ws) : m.Mentions m'' (vs ++ ws) := by
  rw [Mentions, h', h, eraseDups_eraseDups_append, List.append_assoc]

omit [Coefficient α] in
theorem Mentions.indexOf?_eq {vs : List V} (h : m.Mentions m' vs) {i : Nat}
    (hi : m.indexOf? v = some i) : m'.indexOf? v = some i := by
  rw [indexOf?_eq_some_iff] at hi ⊢
  obtain ⟨later, hlater⟩ : m.labels <+: m'.labels := h ▸ prefix_eraseDups_append m.nodup_labels vs
  obtain ⟨hlt, -⟩ := List.getElem?_eq_some_iff.1 hi
  rw [← hlater, List.getElem?_append_left hlt, hi]

theorem mentions_addVariable (m : Model V α) (v : V) (b : α) :
    m.Mentions (m.addVariable v b) [v] := by
  rw [Mentions, labels_addVariable, eraseDups_concat, eraseDups_of_nodup m.nodup_labels]

theorem mentions_addVariables (m : Model V α) (l : List (V × α)) :
    m.Mentions (m.addVariables l) (l.map Prod.fst) := by
  induction l generalizing m with
  | nil => exact .of_labels_eq rfl
  | cons e l ih => exact (m.mentions_addVariable e.1 e.2).trans (ih _)

theorem mentions_couple (m : Model V α) (u v : V) (b : α) : m.Mentions (m.couple u v b) [u, v] :=
  (m.mentions_addVariable u 0).trans (mentions_addVariable _ v 0)

theorem mentions_addInteractions (m : Model V α) (l : List (V × V × α)) :
    m.Mentions (m.addInteractions l).1 (History.ends (History.accepted l)) := by
  induction l generalizing m with
  | nil => exact .of_labels_eq rfl
  | cons e l ih =>
    obtain ⟨u, v, b⟩ := e
    rw [addInteractions, addInteraction]
    by_cases huv : u = v
    · simpa [huv, History.accepted, History.ends] using Mentions.of_labels_eq rfl
    · simpa [huv, History.accepted, History.ends] using (m.mentions_couple u v b).trans (ih _)

theorem mentions_addQuboEntry (m : Model V α) (u v : V) (b : α) :
    m.Mentions (m.addQuboEntry u v b) [u, v] := by
  rw [addQuboEntry]
  split
  · next huv =>
    subst huv
    -- the second mention of the same variable adds nothing
    have hagain : (m.addVariable u b).Mentions (m.addVariable u b) [u] := by
      rw [Mentions, eraseDups_concat, if_pos (mem_labels_addVariable.2 (.inr rfl)),
        eraseDups_of_nodup (nodup_labels _)]
    exact (m.mentions_addVariable u b).trans hagain
  · exact m.mentions_couple u v b

theorem mentions_ofQubo (q : List (V × V × α)) :
    (empty .binary : Model V α).Mentions (ofQubo q) (History.ends q) := by
  have key : ∀ m : Model V α,
      m.Mentions (q.foldl (fun m e => m.addQuboEntry e.1 e.2.1 e.2.2) m) (History.ends q) := by
    induction q with
    | nil => exact fun m => .of_labels_eq rfl
    | cons e q ih => exact fun m => (m.mentions_addQuboEntry e.1 e.2.1 e.2.2).trans (ih _)
  exact key _

theorem addInteractions_snd_eq_none_iff (m : Model V α) (l : List (V × V × α)) :
    (m.addInteractions l).2 = none ↔ ∀ e ∈ l, e.1 ≠ e.2.1 := by
  induction l generalizing m with
  | nil => simp [addInteractions]
  | cons e l ih =>
    obtain ⟨u, v, b⟩ := e
    rw [addInteractions, addInteraction]
    by_cases huv : u = v
    · simp [huv]
    · simp [huv, ih]

theorem ofIsing_eq_ok_iff {h : List (V × α)} {j : List (V × V × α)} :
    ofIsing h j = .ok m ↔ (∀ e ∈ j, e.1 ≠ e.2.1) ∧
      (((empty .spin).addVariables h).addInteractions j).1 = m := by
  rw [← addInteractions_snd_eq_none_iff ((empty .spin).addVariables h) j, ofIsing]
  generalize ((empty .spin).addVariables h).addInteractions j = r
  obtain ⟨m', _ | e⟩ := r <;> simp

end Model

namespace History

variable {V α : Type} [DecidableEq V] {m : Model V α}

theorem accepted_eq_self {l : List (V × V × α)} (h : ∀ e ∈ l, e.1 ≠ e.2.1) : accepted l = l :=
  List.takeWhile_eq_self_iff.2 fun e he => by simpa using h e he

variable [Coefficient α]

theorem mentions_apply (m : Model V α) (o : Operation V α) : m.Mentions (o.apply m).1 o.mentions := by
  cases o with
  | addVariable v b => exact m.mentions_addVariable v b
  | addVariables l => exact m.mentions_addVariables l
  | addInteraction u v b =>
    rw [Operation.apply, Model.addInteraction, Operation.mentions]
    by_cases huv : u = v
    · simpa [huv] using Model.Mentions.of_labels_eq rfl
    · simpa [huv] using m.mentions_couple u v b
  | addInteractions l => exact m.mentions_addInteractions l
  | addOffset c => exact .of_labels_eq rfl
  | scale k => exact .of_labels_eq (OrderedMap.keys_map _ m.linear)

theorem mentions_run (ops : List (Operation V α)) (m : Model V α) :
    m.Mentions (run ops m) (ops.flatMap Operation.mentions) := by
  induction ops generalizing m with
  | nil => exact .of_labels_eq rfl
  | cons o ops ih => exact (mentions_apply m o).trans (ih _)

theorem Start.labels_eq {s : Start V α} (h : s.model? = .ok m) :
    m.labels = s.mentions.eraseDups := by
  cases s with
  | empty t =>
    obtain rfl := Except.ok.inj h
    rfl
  | qubo q =>
    obtain rfl := Except.ok.inj h
    exact Model.mentions_ofQubo q
  | ising hs j =>
    obtain ⟨hj, rfl⟩ := Model.ofIsing_eq_ok_iff.1 h
    have hmentions := ((Model.empty .spin : Model V α).mentions_addVariables hs).trans
      (Model.mentions_addInteractions _ j)
    rwa [accepted_eq_self hj] at hmentions

theorem model?_eq_ok_iff {h : History V α} :
    h.model? = .ok m ↔ ∃ first, h.start.model? = .ok first ∧ run h.operations first = m := by
  rw [model?]
  cases h.start.model? <;> simp [Except.map]

theorem labels_eq {h : History V α} (hm : h.model? = .ok m) : m.labels = h.mentions.eraseDups := by
  obtain ⟨first, hfirst, rfl⟩ := model?_eq_ok_iff.1 hm
  rw [mentions_run h.operations first, Start.labels_eq hfirst, eraseDups_eraseDups_append, mentions]

end History

end BinaryQuadratic

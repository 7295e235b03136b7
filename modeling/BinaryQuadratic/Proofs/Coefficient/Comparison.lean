import Mathlib.Data.List.Induction
import BinaryQuadratic.Coefficient

/-! Comparisons of coefficients. Numbers are in a line, some of them side by side, and the total
order refines that line; a value that is not a number is beside none, not even itself. -/

namespace BinaryQuadratic.Coefficient

variable {α : Type} [Coefficient α]

def IsNumber (a : α) : Prop := (a == a) = true

instance (a : α) : Decidable (IsNumber a) := inferInstanceAs (Decidable ((a == a) = true))

/-- What comparisons keep to although arithmetic is rounded. -/
class Comparable (α : Type) [Coefficient α] : Prop where
  le_trans : ∀ a b c : α, a ≤ b → b ≤ c → a ≤ c
  le_total : ∀ a b : α, IsNumber a → IsNumber b → a ≤ b ∨ b ≤ a
  lt_iff : ∀ a b : α, a < b ↔ a ≤ b ∧ ¬b ≤ a
  beq_iff : ∀ a b : α, (a == b) = true ↔ a ≤ b ∧ b ≤ a
  le_of_totalLe : ∀ a b : α, IsNumber a → IsNumber b → totalLe a b = true → a ≤ b

/-- Nothing but numbers is compared. -/
class NumbersCompared (α : Type) [Coefficient α] : Prop extends Comparable α where
  isNumber_of_le : ∀ a b : α, a ≤ b → IsNumber a ∧ IsNumber b

section Least

theorem least?_concat {a : α} (ha : IsNumber a) (l : List α) : least? (l ++ [a]) =
    some ((least? l).elim a fun b => if a < b then a else b) := by
  unfold IsNumber at ha
  rw [least?, List.foldl_append, ← least?, List.foldl_cons, List.foldl_nil, if_pos ha]
  cases least? l with
  | none => rfl
  | some b => exact (apply_ite some (a < b) a b).symm

variable [Comparable α] {a b : α}

theorem IsNumber.le_refl (ha : IsNumber a) : a ≤ a := ((Comparable.beq_iff a a).1 ha).1

theorem Comparable.lt_of_lt_of_le {c : α} (hab : a < b) (hbc : b ≤ c) : a < c := by
  rw [Comparable.lt_iff] at hab ⊢
  exact ⟨Comparable.le_trans _ _ _ hab.1 hbc,
    fun hca => hab.2 (Comparable.le_trans _ _ _ hbc hca)⟩

theorem Comparable.le_of_lt (h : a < b) : a ≤ b := ((Comparable.lt_iff a b).1 h).1

theorem Comparable.le_of_not_lt (ha : IsNumber a) (hb : IsNumber b) (h : ¬a < b) : b ≤ a := by
  rw [Comparable.lt_iff] at h
  rcases Comparable.le_total a b ha hb with hab | hba
  · by_contra hba
    exact h ⟨hab, hba⟩
  · exact hba

omit [Comparable α] in
theorem IsNumber.maxNum_eq (ha : IsNumber a) (b : α) : maxNum a b = if a < b then b else a := by
  unfold IsNumber at ha
  rw [Coefficient.maxNum, if_pos ha]

omit [Comparable α] in
theorem IsNumber.maxNum (ha : IsNumber a) (hb : IsNumber b) : IsNumber (maxNum a b) := by
  rw [ha.maxNum_eq]
  split
  · exact hb
  · exact ha

theorem le_maxNum (ha : IsNumber a) (hb : IsNumber b) : a ≤ maxNum a b ∧ b ≤ maxNum a b := by
  rw [ha.maxNum_eq]
  split
  · next hlt => exact ⟨Comparable.le_of_lt hlt, hb.le_refl⟩
  · next hlt => exact ⟨ha.le_refl, Comparable.le_of_not_lt ha hb hlt⟩

theorem foldl_maxNum_of_isNumber {l : List α} (ha : IsNumber a) (hl : ∀ x ∈ l, IsNumber x) :
    a ≤ l.foldl maxNum a ∧ ∀ x ∈ l, x ≤ l.foldl maxNum a := by
  induction l generalizing a with
  | nil => exact ⟨ha.le_refl, by simp⟩
  | cons b l ih =>
    have hb : IsNumber b := hl b List.mem_cons_self
    obtain ⟨hla, hlb⟩ := le_maxNum ha hb
    obtain ⟨hle, hall⟩ := ih (ha.maxNum hb) fun x hx => hl x (List.mem_cons_of_mem b hx)
    refine ⟨Comparable.le_trans _ _ _ hla hle, ?_⟩
    rintro x (_ | ⟨_, hx⟩)
    · exact Comparable.le_trans _ _ _ hlb hle
    · exact hall x hx

theorem exists_least?_of_isNumber {l : List α} (hne : l ≠ []) (h : ∀ a ∈ l, IsNumber a) :
    ∃ a, least? l = some a ∧ a ∈ l ∧ ∀ b ∈ l, a ≤ b := by
  induction l using List.reverseRecOn with
  | nil => exact absurd rfl hne
  | append_singleton l a ih =>
    have ha : IsNumber a := h a (by simp)
    rw [least?_concat ha]
    by_cases hl : l = []
    · subst hl
      refine ⟨a, rfl, by simp, fun b hb => ?_⟩
      obtain rfl : b = a := by simpa using hb
      exact ha.le_refl
    · obtain ⟨b, hb, hmem, hle⟩ := ih hl fun c hc => h c (by simp [hc])
      have hbnum : IsNumber b := h b (by simp [hmem])
      rw [hb]
      refine ⟨_, rfl, ?_, fun c hc => ?_⟩ <;> rw [Option.elim_some]
      · split <;> simp [hmem]
      · obtain hc | rfl : c ∈ l ∨ c = a := by simpa using hc
        · split
          · next hlt => exact Comparable.le_trans a b c ((Comparable.lt_iff a b).1 hlt).1 (hle c hc)
          · exact hle c hc
        · split
          · exact ha.le_refl
          · next hlt => exact Comparable.le_of_not_lt ha hbnum hlt

theorem mem_of_least?_eq_some {l : List α} (h : ∀ b ∈ l, IsNumber b) (ha : least? l = some a) :
    a ∈ l := by
  have hne : l ≠ [] := by
    rintro rfl
    cases ha
  obtain ⟨b, hb, hmem, -⟩ := exists_least?_of_isNumber hne h
  obtain rfl := Option.some.inj (ha.symm.trans hb)
  exact hmem

end Least

end BinaryQuadratic.Coefficient

/-! Maps that remember the order in which their keys were first inserted. A later insertion
changes the value in place and leaves the key where it is. -/

namespace BinaryQuadratic

structure OrderedMap (κ β : Type) where
  entries : List (κ × β)
  nodup : (entries.map Prod.fst).Nodup

namespace OrderedMap

variable {κ β γ : Type}

def empty : OrderedMap κ β := ⟨[], List.nodup_nil⟩

instance : EmptyCollection (OrderedMap κ β) := ⟨empty⟩

instance : Inhabited (OrderedMap κ β) := ⟨empty⟩

instance [DecidableEq κ] [DecidableEq β] : DecidableEq (OrderedMap κ β) := fun a b =>
  decidable_of_iff (a.entries = b.entries) ⟨fun h => by cases a; cases b; cases h; rfl,
    congrArg entries⟩

def keys (m : OrderedMap κ β) : List κ := m.entries.map Prod.fst

def values (m : OrderedMap κ β) : List β := m.entries.map Prod.snd

def size (m : OrderedMap κ β) : Nat := m.entries.length

@[simp] theorem length_keys (m : OrderedMap κ β) : m.keys.length = m.size := by
  simp [keys, size]

@[simp] theorem length_values (m : OrderedMap κ β) : m.values.length = m.size := by
  simp [values, size]

@[ext] theorem ext {a b : OrderedMap κ β} (h : a.entries = b.entries) : a = b := by
  cases a; cases b; cases h; rfl

def map (f : β → γ) (m : OrderedMap κ β) : OrderedMap κ γ where
  entries := m.entries.map fun (k, b) => (k, f b)
  nodup := by simpa [Function.comp_def] using m.nodup

@[simp] theorem keys_map (f : β → γ) (m : OrderedMap κ β) : (m.map f).keys = m.keys := by
  simp [map, keys, Function.comp_def]

@[simp] theorem values_map (f : β → γ) (m : OrderedMap κ β) :
    (m.map f).values = m.values.map f := by
  simp [map, values, Function.comp_def]

def zipWith {δ : Type} (f : β → γ → δ) (m : OrderedMap κ β) (l : List γ) : OrderedMap κ δ where
  entries := m.entries.zipWith (fun (k, b) c => (k, f b c)) l
  nodup := by
    have h : ∀ (es : List (κ × β)) (l : List γ),
        ((es.zipWith (fun (k, b) c => (k, f b c)) l).map Prod.fst).Sublist
          (es.map Prod.fst) := by
      intro es
      induction es with
      | nil => simp
      | cons e es ih =>
        rintro (_ | ⟨c, l⟩)
        · simp
        · simpa using ih l
    exact m.nodup.sublist (h m.entries l)

section Lookup

variable [DecidableEq κ]

def find? (m : OrderedMap κ β) (k : κ) : Option β :=
  (m.entries.find? fun e => e.1 = k).map Prod.snd

def contains (m : OrderedMap κ β) (k : κ) : Bool := m.entries.any fun e => e.1 = k

def indexOf? (m : OrderedMap κ β) (k : κ) : Option Nat := m.entries.findIdx? fun e => e.1 = k

/-- The value of `k` becomes `f` of the old one, or of `b` for a new key. -/
def adjustEntries (k : κ) (b : β) (f : β → β) : List (κ × β) → List (κ × β)
  | [] => [(k, f b)]
  | e :: es => if e.1 = k then (e.1, f e.2) :: es else e :: adjustEntries k b f es

theorem map_fst_adjustEntries (k : κ) (b : β) (f : β → β) (es : List (κ × β)) :
    (adjustEntries k b f es).map Prod.fst =
      if k ∈ es.map Prod.fst then es.map Prod.fst else es.map Prod.fst ++ [k] := by
  induction es with
  | nil => simp [adjustEntries]
  | cons e es ih =>
    by_cases h : e.1 = k
    · simp [adjustEntries, h]
    · have h' : ¬ k = e.1 := fun hk => h hk.symm
      simp only [adjustEntries, h, if_false, List.map_cons, ih, List.mem_cons, h', false_or]
      split <;> rfl

def adjust (m : OrderedMap κ β) (k : κ) (b : β) (f : β → β) : OrderedMap κ β where
  entries := adjustEntries k b f m.entries
  nodup := by
    rw [map_fst_adjustEntries]
    split
    · exact m.nodup
    · rename_i h
      exact List.nodup_append.2 ⟨m.nodup, by simp, fun a ha c hc => by
        rw [List.mem_singleton.1 hc]
        rintro rfl
        exact h ha⟩

theorem keys_adjust (m : OrderedMap κ β) (k : κ) (b : β) (f : β → β) :
    (m.adjust k b f).keys = if k ∈ m.keys then m.keys else m.keys ++ [k] :=
  map_fst_adjustEntries k b f m.entries

def insert (m : OrderedMap κ β) (k : κ) (b : β) : OrderedMap κ β := m.adjust k b fun _ => b

theorem keys_insert (m : OrderedMap κ β) (k : κ) (b : β) :
    (m.insert k b).keys = if k ∈ m.keys then m.keys else m.keys ++ [k] :=
  m.keys_adjust k b _

def ofList (l : List (κ × β)) : OrderedMap κ β := l.foldl (fun m (k, b) => m.insert k b) ∅

end Lookup

def keyAt? (m : OrderedMap κ β) (i : Nat) : Option κ := m.keys[i]?

end OrderedMap

abbrev OrderedSet (κ : Type) := OrderedMap κ Unit

namespace OrderedSet

variable {κ : Type} [DecidableEq κ]

def add (s : OrderedSet κ) (k : κ) : OrderedSet κ := s.insert k ()

def addAll (s : OrderedSet κ) (ks : List κ) : OrderedSet κ := ks.foldl add s

end OrderedSet

end BinaryQuadratic

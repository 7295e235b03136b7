import BinaryQuadratic.Problem.Tour.Basic

/-! The shortest tour through a few cities, found by trying all orders of the cities after the
first. Each order comes from the one before by exchanging two cities, and a counter for each
position says which ones. -/

namespace BinaryQuadratic.Search

open Tour

section Orders

def orderCount : Nat → Nat
  | 0 => 1
  | n + 1 => (n + 1) * orderCount n

def remaining : Nat → List Nat → Nat
  | _, [] => 0
  | i, v :: vs => (i - v) * orderCount i + remaining (i + 1) vs

theorem remaining_zeros (i k : Nat) (vs : List Nat) :
    remaining i (List.replicate k 0 ++ vs) + orderCount i =
      orderCount (i + k) + remaining (i + k) vs := by
  induction k generalizing i with
  | zero => simp [Nat.add_comm]
  | succ k ih =>
    have hstep := ih (i + 1)
    have hcount : orderCount (i + 1) = i * orderCount i + orderCount i := Nat.succ_mul i _
    have hpos : i + 1 + k = i + (k + 1) := by omega
    rw [hpos] at hstep
    simp only [List.replicate_succ, List.cons_append, remaining, Nat.sub_zero]
    omega

theorem remaining_exchange {i v : Nat} (h : v < i) (vs : List Nat) :
    remaining 1 (List.replicate (i - 1) 0 ++ (v + 1) :: vs) < remaining i (v :: vs) := by
  have hzeros := remaining_zeros 1 (i - 1) ((v + 1) :: vs)
  have hpos : 1 + (i - 1) = i := by omega
  have hsub : i - v = i - (v + 1) + 1 := by omega
  have hone : orderCount 1 = 1 := rfl
  rw [hpos, hone] at hzeros
  simp only [remaining] at hzeros ⊢
  rw [hsub, Nat.succ_mul]
  omega

variable {β σ : Type}

def exchange (l : List β) (i j : Nat) : List β :=
  match l[i]?, l[j]? with
  | some a, some b => (l.set i b).set j a
  | _, _ => l

def partner (i v : Nat) : Nat := if i % 2 = 0 then 0 else v

/-- Goes through the orders of the elements after the first. The counters are those from position
`i` on, and those before it are zero: a counter that has not reached its position lets it take part
in an exchange, and a new order is seen; one that has is set back, and the next position follows. -/
@[specialize] def visitOrders (visit : List β → σ → Option σ) :
    Nat → List Nat → List β → σ → Option σ
  | _, [], _, s => some s
  | i, v :: vs, l, s =>
    if v < i then
      let l := exchange l (1 + partner i v) (1 + i)
      match visit l s with
      | some s => visitOrders visit 1 (List.replicate (i - 1) 0 ++ (v + 1) :: vs) l s
      | none => none
    else visitOrders visit (i + 1) vs l s
termination_by i counters => (remaining i counters, counters.length)
decreasing_by
  · exact Prod.Lex.left _ _ (remaining_exchange ‹_› vs)
  · rw [remaining, Nat.sub_eq_zero_of_le (Nat.le_of_not_lt ‹_›), Nat.zero_mul, Nat.zero_add]
    exact Prod.Lex.right _ (Nat.lt_succ_self _)

end Orders

variable {α : Type} [Coefficient α]

def keepShorter? (d : Distances α) (tour : List Nat) (best : List Nat × α) :
    Option (List Nat × α) :=
  (tourDistance? d tour).map fun x => if x < best.2 then (tour, x) else best

def shortest? (d : Distances α) : Option (List Nat × α) :=
  let tour := List.range d.length
  match tourDistance? d tour with
  | some x => visitOrders (keepShorter? d) 1 (List.replicate (d.length - 2) 0) tour (tour, x)
  | none => none

def shortestTour (d : Distances α) : Except (ProblemError Cell α) (List Nat × α) := do
  (validate d).mapError fun fault => .invalid (.distances fault)
  if maxEnumeratedCities < d.length then .error (.invalid (.search (.tours d.length)))
  else
    match shortest? d with
    | some best => .ok best
    | none => .error (.model .misfit)

end BinaryQuadratic.Search

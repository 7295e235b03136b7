import BinaryQuadratic.Decimal.Shortest
import BinaryQuadratic.Decimal.Significant

/-! The two ways a double is written: positional with as few digits as read back, and scientific
with a fixed number of places. -/

namespace BinaryQuadratic.Decimal

def placed (c : Nat) (k : Int) : String :=
  if 0 ≤ k then toString (c * Nat.pow 10 k.toNat)
  else
    let places := (-k).toNat
    let unit := Nat.pow 10 places
    let fraction := toString (c % unit)
    toString (c / unit) ++ "." ++
      String.ofList (List.replicate (places - fraction.length) '0') ++ fraction

def pointed (c places : Nat) : String :=
  if places = 0 then toString c else placed c (-places)

def sign (negative : Bool) : String := if negative then "-" else ""

def Double.text (finite : Dyadic → String) (zero : String) : Double → String
  | .nan => "NaN"
  | .infinite negative => sign negative ++ "inf"
  | .zero negative => sign negative ++ zero
  | .finite negative x => sign negative ++ finite x

def positional (x : Float) : String :=
  (Double.ofBits x.toBits.toNat).text (fun x => placed (shortest x).1 (shortest x).2) "0"

def scientific (places : Nat) (x : Float) : String :=
  (Double.ofBits x.toBits.toNat).text
    (fun x => pointed (significant x places).1 places ++ "e" ++ toString (significant x places).2)
    (pointed 0 places ++ "e0")

end BinaryQuadratic.Decimal

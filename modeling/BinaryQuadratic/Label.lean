import BinaryQuadratic.Text.Quoted

/-! Variables are told apart by labels of any type with decidable equality. To be shown, a label
has a plain form, used in listings, and a marked form, used in messages. -/

namespace BinaryQuadratic

class Label (V : Type) where
  plain : V → String
  marked : V → String

inductive Name where
  | text (s : String)
  | number (n : Int)
  deriving DecidableEq, Hashable, Repr

instance : Label Name where
  plain
    | .text s => s
    | .number n => toString n
  marked
    | .text s => Text.quoted s
    | .number n => toString n

def markedList {V : Type} [Label V] (vs : List V) : String :=
  Text.bracketed (vs.map Label.marked)

end BinaryQuadratic

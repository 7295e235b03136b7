import BinaryQuadratic.Coefficient.Binary64
import BinaryQuadratic.Decimal.Text
import BinaryQuadratic.SampleSet.Basic

/-! A sample set as lines of text: one for each record, and a summary. -/

namespace BinaryQuadratic.SampleSet

variable {V : Type} [Label V]

def recordText (r : Record V Float) : String :=
  let items := r.sample.entries.map fun (v, x) => Label.plain v ++ ": " ++ toString x
  "\x7b" ++ ", ".intercalate items ++ "\x7d energy=" ++ Decimal.positional r.energy ++
    " num_occurrences=" ++ toString r.occurrences

def text (s : SampleSet V Float) : String :=
  String.join (s.records.map fun r => recordText r ++ "\n") ++
    "['" ++ s.vartype.name ++ "', " ++ toString s.len ++ " rows, " ++
    toString s.numReads ++ " samples]"

end BinaryQuadratic.SampleSet

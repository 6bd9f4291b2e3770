import LinearTemporal.Formula.Measure
import LinearTemporal.Text.Columns

/-!
# Comparing two formulas

Sizes, depths, numbers of names and operator counts of two formulas, side by
side.
-/

namespace LinearTemporal

structure Profile where
  size : Nat
  depth : Nat
  temporalDepth : Nat
  propositions : Nat
  integerVariables : Nat
  operators : OrderedMap String Nat

namespace Profile

def ofFormula (f : Formula) : Profile :=
  { size := f.size
    depth := f.depth
    temporalDepth := f.temporalDepth
    propositions := f.propositions.size
    integerVariables := f.integerVariables.size
    operators := f.operatorCounts }

def row (label : String) (before after : Nat) : String :=
  "  " ++ Text.padRight 20 label ++ " " ++ Text.padLeft 6 (toString before) ++ " " ++
    Text.padLeft 8 (toString after)

def operatorRows (before after : Profile) : List String :=
  (OrderedSet.ofList (before.operators.keys ++ after.operators.keys)).toList.map
    (fun name => row name (before.operators.getD name 0) (after.operators.getD name 0))

def comparisonLines (before after : Profile) : List String :=
  [ "Formula Metrics:        before    after",
    row "Size" before.size after.size,
    row "Depth" before.depth after.depth,
    row "Temporal depth" before.temporalDepth after.temporalDepth,
    row "Propositions" before.propositions after.propositions,
    row "Variables" before.integerVariables after.integerVariables,
    "",
    "Operator Breakdown:" ] ++
    operatorRows before after

end Profile

end LinearTemporal

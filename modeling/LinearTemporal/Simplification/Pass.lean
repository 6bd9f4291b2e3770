import LinearTemporal.Formula.Measure
import LinearTemporal.Rule.Basic
import LinearTemporal.Simplification.Weight

/-!
# One pass over a formula

A pass works on a formula from the leaves up.  At each node the parts come
first; then the first applicable rule fires, the same is done to the parts of its
outcome, and so on until no rule applies to the node.  The number of firings
at one node is limited; a pass that runs into the limit says so.
-/

namespace LinearTemporal

namespace Simplification

/-- The outcome of firing rules: a formula, the names of the rules that fired, in
order, and whether a limit cut the firing short. -/
structure Outcome where
  formula : Formula
  fired : List String
  exhausted : Bool

namespace Outcome

def unchanged (f : Formula) : Outcome :=
  ⟨f, [], false⟩

def andThen (first second : Outcome) : Outcome :=
  ⟨second.formula, first.fired ++ second.fired, first.exhausted || second.exhausted⟩

end Outcome

def reduceParts (reduce : Formula → Outcome) (f : Formula) : Outcome :=
  let parts := f.children.map reduce
  { formula := f.withChildren (parts.map Outcome.formula)
    fired := parts.flatMap Outcome.fired
    exhausted := parts.any Outcome.exhausted }

/-- Fire rules at the root until none applies, at most `limit` times.  After
each firing the parts of the outcome are reduced. -/
def settle (rules : List Rule) (reduce : Formula → Outcome) : Nat → Formula → Outcome
  | limit, f =>
      match Rule.firstApplicable f rules with
      | none => Outcome.unchanged f
      | some (rule, g) =>
          match limit with
          | 0 => ⟨f, [], true⟩
          | limit + 1 =>
              let inner := reduceParts reduce g
              let rest := settle rules reduce limit inner.formula
              Outcome.andThen ⟨g, [rule.name], false⟩ (inner.andThen rest)

/-!
The number of firings at a node grows with its size and with the number of rules.
-/

def firingLimit (maxPasses : Nat) (rules : List Rule) (size : Nat) : Nat :=
  maxPasses * rules.length * size

/-- Reduce a formula from the leaves up.  The number bounds how deeply the
reduction of parts nests; the weight of the formula is enough. -/
def reduceWithin (maxPasses : Nat) (rules : List Rule) : Nat → Formula → Outcome
  | 0, f => ⟨f, [], true⟩
  | depth + 1, f =>
      let reduce := reduceWithin maxPasses rules depth
      let inner := reduceParts reduce f
      let limit := firingLimit maxPasses rules inner.formula.size
      inner.andThen (settle rules reduce limit inner.formula)

def pass (maxPasses : Nat) (rules : List Rule) (f : Formula) : Outcome :=
  reduceWithin maxPasses rules f.weight f

end Simplification

end LinearTemporal

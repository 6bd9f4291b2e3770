import LinearTemporal.Simplification.Pass
import LinearTemporal.Strategy

/-!
# Simplification

A simplifier repeats passes with the rules of its strategy until a pass changes
nothing, or until its limit of passes is reached, and reports what it did.
-/

namespace LinearTemporal

namespace Simplification

/-!
The passes made include the last one, which changed nothing; rules that never fired are
not counted.
-/

/-- What a simplification did. -/
structure Metrics where
  strategy : Strategy
  passes : Nat
  converged : Bool
  firings : Nat
  ruleCounts : OrderedMap String Nat
  initialSize : Nat
  finalSize : Nat
  deriving DecidableEq

namespace Metrics

def reductionRatio (m : Metrics) : Float :=
  if m.initialSize = 0 then 0
  else 1 - Float.ofNat m.finalSize / Float.ofNat m.initialSize

end Metrics

structure Progress where
  formula : Formula
  passes : Nat
  fired : List String
  converged : Bool

/-- Make passes until one changes nothing, at most `remaining` of them. -/
def runPasses (makePass : Formula → Outcome) : Nat → Formula → Progress
  | 0, f => ⟨f, 0, [], false⟩
  | remaining + 1, f =>
      let outcome := makePass f
      if outcome.formula = f ∧ outcome.exhausted = false then
        ⟨f, 1, outcome.fired, true⟩
      else
        let rest := runPasses makePass remaining outcome.formula
        ⟨rest.formula, rest.passes + 1, outcome.fired ++ rest.fired, rest.converged⟩

end Simplification

structure Simplifier where
  strategy : Strategy := default
  maxPasses : Nat := 64
  deriving DecidableEq

namespace Simplifier

open Simplification

def run (s : Simplifier) (f : Formula) : Formula × Metrics :=
  let rules := s.strategy.rules
  let progress := runPasses (pass s.maxPasses rules) s.maxPasses f
  let metrics : Metrics :=
    { strategy := s.strategy
      passes := progress.passes
      converged := progress.converged
      firings := progress.fired.length
      ruleCounts := OrderedMap.tally progress.fired
      initialSize := f.size
      finalSize := progress.formula.size }
  (progress.formula, metrics)

end Simplifier

namespace Formula

def simplify (f : Formula) (strategy : Strategy) : Formula :=
  (Simplifier.run { strategy := strategy } f).1

end Formula

end LinearTemporal

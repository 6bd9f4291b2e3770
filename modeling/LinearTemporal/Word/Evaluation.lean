import LinearTemporal.Formula.Basic
import LinearTemporal.Word.Lasso

/-!
# Evaluating formulas on lassos

A formula is evaluated at all distinct positions of a lasso at once.  The
temporal operators are fixpoints of one step back in time: `eventually` and
`untl` the least, `always` and `release` the greatest.  They are found by
sweeping over the positions from the last to the first until nothing changes.
-/

namespace LinearTemporal

namespace Connective

def apply : Connective → Bool → Bool → Bool
  | and, a, b => a && b
  | or, a, b => a || b

end Connective

namespace Lasso

/-!
## Fixpoints

The value at a position is one step of the value after it.  In a sweep that is the new
value, except at the end of the cycle, where it is the old one at the cycle's start.
-/

/-- One sweep from the last position to the first.  The value at a position is
`step` of the value after it, which is the new one except at the end of the
cycle, where it is the old one at the cycle's start. -/
def sweep (w : Lasso) (step : Nat → Bool → Bool) (values : List Bool) : List Bool :=
  let wrapped := values.getD w.stem.length false
  (List.range w.length).foldr (fun i later => step i (later.headD wrapped) :: later) []

def sweepUntilStable (w : Lasso) (step : Nat → Bool → Bool) : Nat → List Bool → List Bool
  | 0, values => values
  | rounds + 1, values =>
      let next := w.sweep step values
      if next = values then values else w.sweepUntilStable step rounds next

/-- The fixpoint of a monotone step that is reached from `start` everywhere:
the least one from `false`, the greatest one from `true`.  Every round but the
last changes a value for good, so there are at most as many as positions, and
one more. -/
def fixpoint (w : Lasso) (start : Bool) (step : Nat → Bool → Bool) : List Bool :=
  w.sweepUntilStable step (w.length + 1) (List.replicate w.length start)

/-!
## Truth values

Formulas are evaluated from the leaves up, at all distinct positions together.  A lasso
satisfies a formula that holds at its first position.
-/

mutual

def evaluate (w : Lasso) : Formula → List Bool
  | .const value => List.replicate w.length value
  | .literal name negated => w.states.map (fun s => s.holds name != negated)
  | .atom left op right =>
      w.states.map (fun s => op.holds (left.evaluate s.value) (right.evaluate s.value))
  | .not body => (w.evaluate body).map (fun value => !value)
  | .next body =>
      let later := w.evaluate body
      (List.range w.length).map (fun i => later.getD (w.successor i) false)
  | .always body =>
      let now := w.evaluate body
      w.fixpoint true (fun i next => now.getD i false && next)
  | .eventually body =>
      let now := w.evaluate body
      w.fixpoint false (fun i next => now.getD i false || next)
  | .untl left right =>
      let lefts := w.evaluate left
      let rights := w.evaluate right
      w.fixpoint false (fun i next => rights.getD i false || (lefts.getD i false && next))
  | .release left right =>
      let lefts := w.evaluate left
      let rights := w.evaluate right
      w.fixpoint true (fun i next => rights.getD i false && (lefts.getD i false || next))
  | .junction k operands => w.evaluateAll k operands

def evaluateAll (w : Lasso) (k : Connective) : List Formula → List Bool
  | [] => List.replicate w.length k.neutral
  | f :: fs => List.zipWith k.apply (w.evaluate f) (w.evaluateAll k fs)

end

/-- Whether a formula holds at a position of the infinite word. -/
def holdsAt (w : Lasso) (f : Formula) (i : Nat) : Bool :=
  (w.evaluate f).getD (w.locate i) false

def satisfies (w : Lasso) (f : Formula) : Bool :=
  w.holdsAt f 0

def distinguishes (w : Lasso) (f g : Formula) : Bool :=
  w.satisfies f != w.satisfies g

end Lasso

end LinearTemporal

import LinearTemporal.Rule.Basic
import LinearTemporal.Rule.Entailment

/-!
# Subsumption rules

Rules that drop what syntactic entailment shows to be redundant: operands of a
junction beside another operand, parts of a nested junction beside its siblings,
and temporal operators whose left side, or whose operator, adds nothing.
-/

namespace LinearTemporal
namespace Rule

/-!
Beside a sibling, an operand of a conjunction is redundant if the sibling implies it,
and an operand of a disjunction if it implies the sibling.  One redundant operand is
dropped at a time, the first one.
-/

def makesRedundant (k : Connective) (sibling f : Formula) : Bool :=
  match k with
  | .and => sibling.implies f
  | .or => f.implies sibling

def dropRedundant (k : Connective) (operands : List Formula) : Option Formula :=
  (operands.find? (fun f => operands.any (fun g => g != f && makesRedundant k g f))).map
    (fun f => Formula.join k (operands.filter (fun g => g != f)))

def dropImpliedConjunct : Formula → Option Formula
  | .junction .and operands => dropRedundant .and operands
  | _ => none

def dropImplyingDisjunct : Formula → Option Formula
  | .junction .or operands => dropRedundant .or operands
  | _ => none

/-!
The siblings of a nested junction of the dual kind are also compared with what its
operands are made of.  An operand of the nested junction can lose parts of its own, or
all of them.
-/

def remaining (k : Connective) (siblings : List Formula) (f : Formula) : List Formula :=
  (f.operandsUnder k).filter (fun leaf => !siblings.any (fun s => makesRedundant k s leaf))

def trim (k : Connective) (siblings : List Formula) : List Formula → Option (List Formula)
  | [] => some []
  | f :: fs => do
      let kept := remaining k siblings f
      if kept.length = (f.operandsUnder k).length then
        return f :: (← trim k siblings fs)
      else if kept.isEmpty then
        none
      else
        return Formula.join k kept :: (← trim k siblings fs)

/-- What replaces a nested junction of the dual kind, whose operands are
`nested`, beside its siblings in a junction with connective `k`; `none` if it
stays.  Where nothing remains of one of its operands, the nested junction is
neutral as a whole. -/
def absorb (k : Connective) (siblings nested : List Formula) : Option (List Formula) :=
  match trim k siblings nested with
  | none => some []
  | some trimmed =>
      if trimmed = nested then none else some [Formula.join k.dual trimmed]

/-- Inside a nested junction of the dual kind, what a sibling of that junction
makes redundant is dropped, because it matters only where the sibling leaves
the whole undecided. -/
def contextualAbsorption : Formula → Option Formula
  | .junction k operands =>
      operands.findSome? (fun f =>
        match f with
        | .junction l nested =>
            if l = k.dual then
              let siblings := operands.filter (fun g => g != f)
              (absorb k siblings nested).map (fun replacement =>
                Formula.join k (siblings ++ replacement))
            else
              none
        | _ => none)
  | _ => none

def subsumedUntilRelease : Formula → Option Formula
  | .untl left right => if left.implies right then some right else none
  | .release left right => if right.implies left then some right else none
  | .eventually (.untl _ right) => some (.eventually right)
  | .always (.release _ right) => some (.always right)
  | _ => none

def subsumption : List Rule :=
  [ { name := "drop_implied_conjunct"
      description := "a & b = a when a implies b"
      transform := dropImpliedConjunct },
    { name := "drop_implying_disjunct"
      description := "a | b = b when a implies b"
      transform := dropImplyingDisjunct },
    { name := "contextual_absorption"
      description := "a & (b | (a & c)) = a & (b | c)"
      transform := contextualAbsorption },
    { name := "subsumed_until_release"
      description := "a U b = b when a implies b; F (a U b) = F b"
      transform := subsumedUntilRelease } ]

end Rule
end LinearTemporal

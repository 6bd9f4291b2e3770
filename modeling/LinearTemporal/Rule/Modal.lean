import LinearTemporal.Formula.Measure
import LinearTemporal.Rule.Basic

/-!
# Modal rules

Laws of the temporal operators: their duals under negation, their values on
constants, idempotence, and the operators that distribute over a connective.
-/

namespace LinearTemporal

namespace Formula

def next? : Formula → Option Formula
  | next body => some body
  | _ => none

def always? : Formula → Option Formula
  | always body => some body
  | _ => none

def eventually? : Formula → Option Formula
  | eventually body => some body
  | _ => none

end Formula

namespace Rule

/-!
A negation moves into a junction or a temporal operator, which becomes its dual.  A
temporal operator vanishes over a constant, where it is applied a second time, and over
a formula whose truth value is the same at all positions.
-/

def pushNegation : Formula → Option Formula
  | .not (.junction k operands) => some (Formula.join k.dual (operands.map Formula.negated))
  | .not (.next body) => some (.next body.negated)
  | .not (.always body) => some (.eventually body.negated)
  | .not (.eventually body) => some (.always body.negated)
  | .not (.untl left right) => some (.release left.negated right.negated)
  | .not (.release left right) => some (.untl left.negated right.negated)
  | _ => none

def temporalConstants : Formula → Option Formula
  | .next (.const value) => some (.const value)
  | .always (.const value) => some (.const value)
  | .eventually (.const value) => some (.const value)
  | .untl _ (.const value) => some (.const value)
  | .untl (.const false) right => some right
  | .untl (.const true) right => some (.eventually right)
  | .release _ (.const value) => some (.const value)
  | .release (.const true) right => some right
  | .release (.const false) right => some (.always right)
  | _ => none

def temporalIdempotence : Formula → Option Formula
  | .next body => if body.isSuffixInvariant then some body else none
  | .always body => if body.isAlways || body.isSuffixInvariant then some body else none
  | .eventually body => if body.isEventually || body.isSuffixInvariant then some body else none
  | .untl left right => if left = right then some left else none
  | .release left right => if left = right then some left else none
  | _ => none

/-- Merge the operands whose root `body?` recognises into one.  `wrap` puts the
root back, and distributes over `k`. -/
def mergeUnder (k : Connective) (body? : Formula → Option Formula)
    (wrap : Formula → Formula) (operands : List Formula) : Option Formula :=
  let bodies := operands.filterMap body?
  if bodies.length < 2 then
    none
  else
    let rest := operands.filter (fun f => (body? f).isNone)
    some (Formula.join k (rest ++ [wrap (Formula.join k bodies)]))

def mergeTemporal : Formula → Option Formula
  | .junction .and operands =>
      (mergeUnder .and Formula.always? .always operands).or
        (mergeUnder .and Formula.next? .next operands)
  | .junction .or operands =>
      (mergeUnder .or Formula.eventually? .eventually operands).or
        (mergeUnder .or Formula.next? .next operands)
  | _ => none

def modal : List Rule :=
  [ { name := "push_negation"
      description := "De Morgan and the X/G/F/U/R dualities"
      transform := pushNegation },
    { name := "temporal_constants"
      description := "temporal operators over true/false"
      transform := temporalConstants },
    { name := "temporal_idempotence"
      description := "FF a = F a; GG a = G a; a U a = a; suffix-invariant operands"
      transform := temporalIdempotence },
    { name := "merge_temporal"
      description := "G a & G b = G (a & b); F a | F b = F (a | b); X distributes"
      transform := mergeTemporal } ]

end Rule
end LinearTemporal

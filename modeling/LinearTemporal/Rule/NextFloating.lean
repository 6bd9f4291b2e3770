import LinearTemporal.Rule.Modal

/-!
# Moving `next` to the root

`next` commutes with every other operator.  The one rule of this module swaps
it with the operator above it whenever all operands of that operator start with
`next`.
-/

namespace LinearTemporal

namespace Formula

def nextAll? : List Formula → Option (List Formula)
  | [] => some []
  | f :: fs =>
      match f.next?, nextAll? fs with
      | some body, some bodies => some (body :: bodies)
      | _, _ => none

end Formula

namespace Rule

def pullNext : Formula → Option Formula
  | .not (.next body) => some (.next (.not body))
  | .always (.next body) => some (.next (.always body))
  | .eventually (.next body) => some (.next (.eventually body))
  | .untl (.next left) (.next right) => some (.next (.untl left right))
  | .release (.next left) (.next right) => some (.next (.release left right))
  | .junction k operands =>
      (Formula.nextAll? operands).map (fun bodies => .next (Formula.join k bodies))
  | _ => none

def nextFloating : List Rule :=
  [ { name := "pullup_next"
      description := "X commutes with !, G, F, U, R, & and |"
      transform := pullNext } ]

end Rule
end LinearTemporal

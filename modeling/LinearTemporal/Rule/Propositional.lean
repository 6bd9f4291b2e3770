import LinearTemporal.Rule.Basic

/-!
# Propositional rules

Boolean laws that look at a junction and its operands, or at a negation and
what it negates.
-/

namespace LinearTemporal
namespace Rule

/-!
In a junction the absorbing constant decides, and the neutral one vanishes.  Literals
and atoms absorb a negation.  A junction that holds a formula and its complement is
decided.
-/

def foldConstants : Formula → Option Formula
  | .not (.const value) => some (.const (!value))
  | .junction k operands =>
      if operands.any (fun f => f.constant? == some k.absorbing) then
        some (.const k.absorbing)
      else if operands.any (fun f => f.constant?.isSome) then
        some (Formula.join k (operands.filter (fun f => f.constant?.isNone)))
      else
        none
  | _ => none

def doubleNegation : Formula → Option Formula
  | .not (.not body) => some body
  | _ => none

def negateLeaf : Formula → Option Formula
  | .not (.literal name negated) => some (.literal name (!negated))
  | .not (.atom left op right) => some (.atom left op.negate right)
  | _ => none

def complementaryOperands : Formula → Option Formula
  | .junction k operands =>
      if (operands.filterMap Formula.complement?).any (fun f => operands.contains f) then
        some (.const k.absorbing)
      else
        none
  | _ => none

def propositional : List Rule :=
  [ { name := "fold_constants"
      description := "true/false absorb or vanish in junctions; !true = false"
      transform := foldConstants },
    { name := "double_negation"
      description := "!!a = a"
      transform := doubleNegation },
    { name := "negate_leaf"
      description := "!p becomes a negated literal; !(x op y) = x negate(op) y"
      transform := negateLeaf },
    { name := "complementary_operands"
      description := "a & !a = false; a | !a = true"
      transform := complementaryOperands } ]

end Rule
end LinearTemporal

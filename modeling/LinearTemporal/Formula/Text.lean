import LinearTemporal.Formula.Basic

/-!
# The written form of formulas

Leaves, negations and unary temporal operators stand as they are; an atom, a
binary temporal operator or a junction is bracketed wherever it is an operand.
So every operand is recognised without knowing any precedence.
-/

namespace LinearTemporal
namespace Formula

mutual

/-- The text of a formula; `nested` says that it stands as an operand. -/
def renderAt (nested : Bool) : Formula → String
  | const true => "true"
  | const false => "false"
  | literal name negated => (if negated then "!" else "") ++ name
  | atom left op right =>
      Term.bracket nested (left.render ++ " " ++ op.symbol ++ " " ++ right.render)
  | not body => "!" ++ body.renderAt true
  | next body => "X " ++ body.renderAt true
  | always body => "G " ++ body.renderAt true
  | eventually body => "F " ++ body.renderAt true
  | untl left right =>
      Term.bracket nested (left.renderAt true ++ " U " ++ right.renderAt true)
  | release left right =>
      Term.bracket nested (left.renderAt true ++ " R " ++ right.renderAt true)
  | junction k operands =>
      Term.bracket nested (String.intercalate (" " ++ k.symbol ++ " ") (renderOperands operands))

def renderOperands : List Formula → List String
  | [] => []
  | f :: fs => f.renderAt true :: renderOperands fs

end

def render (f : Formula) : String :=
  f.renderAt false

end Formula
end LinearTemporal

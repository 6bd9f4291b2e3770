import LinearTemporal.Formula.Basic

/-!
# The weight of a formula

A measure that every rule makes smaller on formulas in canonical shape, and that
is smaller for the parts of a formula than for the whole.  Negation doubles what
is below it, so that pushing it down over several operands pays; so do `always`
and `eventually`, which makes it pay to move `next` out of them.
-/

namespace LinearTemporal
namespace Formula

mutual

def weight : Formula → Nat
  | not body => 2 * body.weight
  | next body => body.weight + 2
  | always body => 2 * body.weight + 3
  | eventually body => 2 * body.weight + 3
  | untl left right => left.weight + 2 * right.weight + 3
  | release left right => left.weight + 2 * right.weight + 3
  | junction _ operands => weightAll operands + 1
  | _ => 1

def weightAll : List Formula → Nat
  | [] => 0
  | f :: fs => f.weight + weightAll fs

end

end Formula
end LinearTemporal

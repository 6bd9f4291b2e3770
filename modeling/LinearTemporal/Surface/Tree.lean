import LinearTemporal.Formula.Junction
import LinearTemporal.Surface.Token

/-!
# Surface trees

What the written language says, operator by operator, before operators that
formulas do not have are expressed by those that they have.
-/

namespace LinearTemporal
namespace Surface

inductive Tree where
  | constant (value : Bool)
  | proposition (name : String)
  | atom (left : Term) (op : Comparison) (right : Term)
  | not (body : Tree)
  | modal (op : Modality) (body : Tree)
  | temporal (op : TemporalOperator) (left right : Tree)
  /-- A chain of two or more operands under one connective. -/
  | chain (k : Connective) (operands : List Tree)
  | implies (premise conclusion : Tree)
  | iff (left right : Tree)
  deriving Repr

/-!
## The formula of a tree

A negated proposition is a literal.  Implication, equivalence, weak until and strong
release are expressed by the other operators; the last two by exchanging the sides and
joining what held last to what holds first.
-/

def negate : Formula → Formula
  | .literal name false => .literal name true
  | f => .not f

namespace Modality

def apply : Modality → Formula → Formula
  | next, f => .next f
  | always, f => .always f
  | eventually, f => .eventually f

end Modality

namespace TemporalOperator

def apply : TemporalOperator → Formula → Formula → Formula
  | untl, left, right => .untl left right
  | release, left, right => .release left right
  | weakUntil, left, right => .release right (Formula.disj [left, right])
  | strongRelease, left, right => .untl right (Formula.conj [left, right])

end TemporalOperator

def implication (premise conclusion : Formula) : Formula :=
  Formula.disj [negate premise, conclusion]

def equivalence (left right : Formula) : Formula :=
  Formula.disj [Formula.conj [left, right], Formula.conj [negate left, negate right]]

namespace Tree

mutual

def toFormula : Tree → Formula
  | constant value => .const value
  | proposition name => Formula.proposition name
  | atom left op right => .atom left op right
  | not body => negate body.toFormula
  | modal op body => op.apply body.toFormula
  | temporal op left right => op.apply left.toFormula right.toFormula
  | chain k operands => Formula.join k (toFormulas operands)
  | implies premise conclusion => implication premise.toFormula conclusion.toFormula
  | iff left right => equivalence left.toFormula right.toFormula

def toFormulas : List Tree → List Formula
  | [] => []
  | t :: ts => t.toFormula :: toFormulas ts

end

end Tree

end Surface
end LinearTemporal

import LinearTemporal.Term

/-!
# Formulas of linear temporal logic

Formulas over propositions and comparisons of integer terms.  Conjunction and
disjunction are one constructor, `junction`, that carries its connective and a
list of operands, since nearly every law about one is the dual of a law about
the other.

The type admits junctions of any shape.  Those that the library builds have at
least two operands, in strictly ascending canonical order, none of which is a
junction with the same connective; see `Formula.validate`.
-/

namespace LinearTemporal

/-!
## Connectives

Each connective has a constant that changes no junction, and one that decides a junction
on its own.  The first is also the value of the junction of no operands.
-/

inductive Connective where
  | and
  | or
  deriving DecidableEq, Repr

namespace Connective

def dual : Connective → Connective
  | and => or
  | or => and

def neutral : Connective → Bool
  | and => true
  | or => false

def absorbing (k : Connective) : Bool :=
  !k.neutral

def symbol : Connective → String
  | and => "&"
  | or => "|"

def rank : Connective → Nat
  | and => 0
  | or => 1

instance : Ord Connective where
  compare a b := compare a.rank b.rank

theorem compare_eq_iff {a b : Connective} : compare a b = .eq ↔ a = b := by
  cases a <;> cases b <;> decide

@[simp] theorem dual_dual (k : Connective) : k.dual.dual = k := by
  cases k <;> rfl

@[simp] theorem neutral_dual (k : Connective) : k.dual.neutral = !k.neutral := by
  cases k <;> rfl

end Connective

/-!
## The type of formulas

Literals and atoms carry their negation with them.  The temporal operators speak about
the states from the present one on.
-/

inductive Formula where
  | const (value : Bool)
  | literal (name : String) (negated : Bool)
  | atom (left : Term) (op : Comparison) (right : Term)
  | not (body : Formula)
  /-- In the next state. -/
  | next (body : Formula)
  /-- Now and in every later state. -/
  | always (body : Formula)
  /-- Now or in some later state. -/
  | eventually (body : Formula)
  /-- `right` holds now or later, and `left` in every state before. -/
  | untl (left right : Formula)
  /-- `right` holds up to and including the first state where `left` does, or
  forever. -/
  | release (left right : Formula)
  | junction (kind : Connective) (operands : List Formula)
  deriving Repr

namespace Formula

instance : Inhabited Formula :=
  ⟨const true⟩

def proposition (name : String) : Formula :=
  literal name false

/-!
## Parts of a formula

Tests of the root, and the immediate parts in order.
-/

def constant? : Formula → Option Bool
  | const value => some value
  | _ => none

def isTrue (f : Formula) : Bool :=
  f.constant? == some true

def isFalse (f : Formula) : Bool :=
  f.constant? == some false

def operands? : Formula → Option (List Formula)
  | junction _ operands => some operands
  | _ => none

def isAlways : Formula → Bool
  | always _ => true
  | _ => false

def isEventually : Formula → Bool
  | eventually _ => true
  | _ => false

def children : Formula → List Formula
  | const _ => []
  | literal .. => []
  | atom .. => []
  | not body => [body]
  | next body => [body]
  | always body => [body]
  | eventually body => [body]
  | untl left right => [left, right]
  | release left right => [left, right]
  | junction _ operands => operands

/-- The negation of a formula where that takes no change below the root: of a
leaf, and of a negation. -/
def complement? : Formula → Option Formula
  | const value => some (const (!value))
  | literal name negated => some (literal name (!negated))
  | atom left op right => some (atom left op.negate right)
  | not body => some body
  | _ => none

/-- The negation of a formula, with no more added than one `not` at the root. -/
def negated (f : Formula) : Formula :=
  f.complement?.getD (not f)

def nextN : Nat → Formula → Formula
  | 0, f => f
  | n + 1, f => next (nextN n f)

end Formula

end LinearTemporal

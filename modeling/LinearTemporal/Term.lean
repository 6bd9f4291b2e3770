import LinearTemporal.Comparison

/-!
# Integer terms

Terms over 64-bit integer variables.  Arithmetic wraps: a term has a value for
every valuation of its variables.  The written form uses the fewest parentheses
that the precedences of the operators allow, except that a negated literal is
always set in parentheses, so that it differs from a negative literal.
-/

namespace LinearTemporal

inductive Arithmetic where
  | add
  | sub
  | mul
  deriving DecidableEq, Repr

namespace Arithmetic

def symbol : Arithmetic → String
  | add => "+"
  | sub => "-"
  | mul => "*"

def apply : Arithmetic → Int64 → Int64 → Int64
  | add, a, b => a + b
  | sub, a, b => a - b
  | mul, a, b => a * b

def precedence : Arithmetic → Nat
  | add => 1
  | sub => 1
  | mul => 2

def rank : Arithmetic → Nat
  | add => 0
  | sub => 1
  | mul => 2

instance : Ord Arithmetic where
  compare a b := compare a.rank b.rank

theorem compare_eq_iff {a b : Arithmetic} : compare a b = .eq ↔ a = b := by
  cases a <;> cases b <;> decide

end Arithmetic

inductive Term where
  | var (name : String)
  | int (value : Int64)
  | neg (body : Term)
  | binary (op : Arithmetic) (left right : Term)
  deriving DecidableEq, Repr

namespace Term

/-!
## Values

Names of variables are listed from left to right, and with repetitions.
-/

def evaluate (valuation : String → Int64) : Term → Int64
  | var name => valuation name
  | int value => value
  | neg body => -body.evaluate valuation
  | binary op left right => op.apply (left.evaluate valuation) (right.evaluate valuation)

def variableNames : Term → List String
  | var name => [name]
  | int _ => []
  | neg body => body.variableNames
  | binary _ left right => left.variableNames ++ right.variableNames

/-!
## Canonical order

Variables come first, then literals, negations and binary operations; terms of
one kind are compared part by part.
-/

def rank : Term → Nat
  | var _ => 0
  | int _ => 1
  | neg _ => 2
  | binary .. => 3

def order : Term → Term → Ordering
  | var a, var b => compare a b
  | int a, int b => compare a b
  | neg a, neg b => a.order b
  | binary p a b, binary q c d => (compare p q).then ((a.order c).then (b.order d))
  | a, b => compare a.rank b.rank

instance : Ord Term where
  compare := order

theorem order_eq_iff {a b : Term} : a.order b = .eq ↔ a = b := by
  induction a generalizing b with
  | var a =>
      cases b <;> simp [order, rank]
  | int a =>
      cases b <;> simp [order, rank]
  | neg a ih =>
      cases b <;> simp [order, rank, ih]
  | binary p a b iha ihb =>
      cases b <;> simp [order, rank, Ordering.then_eq_eq, Arithmetic.compare_eq_iff, iha, ihb]

/-!
## Written form

An operand is bracketed if it binds less tightly than its operation.  A right operand is
bracketed also where it binds equally tightly, since operations are read from the left.
-/

def precedence : Term → Nat
  | binary op _ _ => op.precedence
  | neg _ => 3
  | int _ => 4
  | var _ => 4

def bracket (needed : Bool) (text : String) : String :=
  if needed then "(" ++ text ++ ")" else text

def render : Term → String
  | var name => name
  | int value => toString value.toInt
  | neg (int value) => "-" ++ bracket true (toString value.toInt)
  | neg body => "-" ++ bracket (body.precedence < 3) body.render
  | binary op left right =>
      bracket (left.precedence < op.precedence) left.render ++
        " " ++ op.symbol ++ " " ++
        bracket (right.precedence ≤ op.precedence) right.render

end Term

end LinearTemporal

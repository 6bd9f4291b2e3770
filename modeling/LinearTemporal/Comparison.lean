/-!
# Comparisons of integers

The four order comparisons that an atomic formula may state of two integer
terms.  They are closed under negation, so a negated atom is an atom again.
-/

namespace LinearTemporal

inductive Comparison where
  | leq
  | lt
  | geq
  | gt
  deriving DecidableEq, Repr

namespace Comparison

def all : List Comparison :=
  [leq, lt, geq, gt]

def symbol : Comparison → String
  | leq => "<="
  | lt => "<"
  | geq => ">="
  | gt => ">"

/-- The comparison that holds exactly when the given one does not. -/
def negate : Comparison → Comparison
  | leq => gt
  | lt => geq
  | geq => lt
  | gt => leq

def holds (op : Comparison) (left right : Int64) : Bool :=
  match op with
  | leq => decide (left ≤ right)
  | lt => decide (left < right)
  | geq => decide (right ≤ left)
  | gt => decide (right < left)

def rank : Comparison → Nat
  | leq => 0
  | lt => 1
  | geq => 2
  | gt => 3

instance : Ord Comparison where
  compare a b := compare a.rank b.rank

theorem compare_eq_iff {a b : Comparison} : compare a b = .eq ↔ a = b := by
  cases a <;> cases b <;> decide

theorem negate_negate (op : Comparison) : op.negate.negate = op := by
  cases op <;> rfl

end Comparison

end LinearTemporal

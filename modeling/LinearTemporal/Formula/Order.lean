import LinearTemporal.Ascending
import LinearTemporal.Formula.Basic

/-!
# The canonical order of formulas

Formulas are compared by their root constructor first and then part by part,
names by their code points, operand lists lexicographically.  The order is what
makes equal junctions equal formulas: their operands are listed in it.  The main
statement says that only equal formulas compare as equal, which also decides
equality.
-/

namespace LinearTemporal
namespace Formula

/-!
The ranks give the order of the root constructors.  Operand lists are compared
lexicographically, and a list comes before its extensions.
-/

def rank : Formula → Nat
  | const _ => 0
  | literal .. => 1
  | atom .. => 2
  | not _ => 3
  | next _ => 4
  | always _ => 5
  | eventually _ => 6
  | untl .. => 7
  | release .. => 8
  | junction .. => 9

mutual

def order : Formula → Formula → Ordering
  | const a, const b => compare a b
  | literal a p, literal b q => (compare a b).then (compare p q)
  | atom a p b, atom c q d => (compare a c).then ((compare p q).then (compare b d))
  | not a, not b => a.order b
  | next a, next b => a.order b
  | always a, always b => a.order b
  | eventually a, eventually b => a.order b
  | untl a b, untl c d => (a.order c).then (b.order d)
  | release a b, release c d => (a.order c).then (b.order d)
  | junction k fs, junction l gs => (compare k l).then (orderOperands fs gs)
  | f, g => compare f.rank g.rank

def orderOperands : List Formula → List Formula → Ordering
  | [], [] => .eq
  | [], _ :: _ => .lt
  | _ :: _, [] => .gt
  | f :: fs, g :: gs => (f.order g).then (orderOperands fs gs)

end

instance : Ord Formula where
  compare := order

mutual

theorem order_eq_iff : ∀ {f g : Formula}, f.order g = .eq ↔ f = g
  | const a, g => by
      cases g <;> simp [order, rank]
  | literal a p, g => by
      cases g <;> simp [order, rank, Ordering.then_eq_eq]
  | atom a p b, g => by
      have hterm : ∀ {s t : Term}, compare s t = .eq ↔ s = t := Term.order_eq_iff
      cases g <;> simp [order, rank, Ordering.then_eq_eq, Comparison.compare_eq_iff, hterm]
  | not a, g => by
      cases g <;> simp [order, rank, order_eq_iff (f := a)]
  | next a, g => by
      cases g <;> simp [order, rank, order_eq_iff (f := a)]
  | always a, g => by
      cases g <;> simp [order, rank, order_eq_iff (f := a)]
  | eventually a, g => by
      cases g <;> simp [order, rank, order_eq_iff (f := a)]
  | untl a b, g => by
      cases g <;>
        simp [order, rank, Ordering.then_eq_eq, order_eq_iff (f := a), order_eq_iff (f := b)]
  | release a b, g => by
      cases g <;>
        simp [order, rank, Ordering.then_eq_eq, order_eq_iff (f := a), order_eq_iff (f := b)]
  | junction k fs, g => by
      cases g <;>
        simp [order, rank, Ordering.then_eq_eq, Connective.compare_eq_iff,
          orderOperands_eq_iff (l := fs)]

theorem orderOperands_eq_iff :
    ∀ {l m : List Formula}, orderOperands l m = .eq ↔ l = m
  | [], gs => by
      cases gs <;> simp [orderOperands]
  | f :: fs, gs => by
      cases gs <;>
        simp [orderOperands, Ordering.then_eq_eq, order_eq_iff (f := f),
          orderOperands_eq_iff (l := fs)]

end

instance : DecidableEq Formula := fun f g =>
  withPtrEqDecEq f g (fun _ => decidable_of_iff _ order_eq_iff)

end Formula
end LinearTemporal

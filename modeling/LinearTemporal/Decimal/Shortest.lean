import LinearTemporal.Decimal.Binary64

/-!
# The shortest decimal of a floating-point number

Among all decimals that are rounded to a given number, the one with the fewest
digits, and of several such the nearest one.  Of two that are equally near the
one with an even last digit is taken.
-/

namespace LinearTemporal
namespace Decimal

structure Scaled where
  digits : Nat
  exponent : Int
  deriving DecidableEq, Repr

namespace Scaled

def value (d : Scaled) : Rat :=
  (d.digits : Rat) * (10 : Rat) ^ d.exponent

/-!
A decimal is kept without zeros at the end of its digits.  The candidates lie on the
grid of multiples of a power of ten, next to the number itself, and the coarsest grid
with one that is rounded to the number has the fewest digits.
-/

def strip : Nat → Scaled → Scaled
  | 0, d => d
  | fuel + 1, d =>
      if d.digits % 10 = 0 ∧ d.digits ≠ 0 then
        strip fuel ⟨d.digits / 10, d.exponent + 1⟩
      else
        d

end Scaled

/-- The least `k` such that a positive number is below `10 ^ k`.  The binary
logarithm gives it up to one. -/
def magnitudeExponent (x : Binary64) : Int :=
  let estimate := ((x.significand.log2 : Int) + x.exponent) * 30103 / 100000
  let below (k : Int) : Bool := x.magnitude < (10 : Rat) ^ k
  if below estimate then estimate
  else if below (estimate + 1) then estimate + 1
  else estimate + 2

def nearer (target first second : Rat) (ties : Bool) : Bool :=
  let toFirst := target - first
  let toSecond := second - target
  toFirst < toSecond || (toFirst == toSecond && ties)

def onGrid? (x : Binary64) (exponent : Int) : Option Scaled :=
  let low := (x.magnitude / (10 : Rat) ^ exponent).floor.toNat
  let down : Scaled := ⟨low, exponent⟩
  let up : Scaled := ⟨low + 1, exponent⟩
  match x.roundsFrom down.value, x.roundsFrom up.value with
  | true, true =>
      some (if nearer x.magnitude down.value up.value (low % 2 == 0) then down else up)
  | true, false => some down
  | false, true => some up
  | false, false => none

/-- The shortest decimal that is rounded to a number that is not zero.
Seventeen digits are always enough. -/
def shortest (x : Binary64) : Scaled :=
  let k := magnitudeExponent x
  let found := (List.range 17).findSome? (fun (n : Nat) => onGrid? x (k - n - 1))
  (found.getD ⟨(x.magnitude / (10 : Rat) ^ (k - 17)).floor.toNat, k - 17⟩).strip 17

end Decimal
end LinearTemporal

/-!
# Binary floating-point numbers as fractions

A finite 64-bit floating-point number stands for an exact fraction, and an
interval of fractions around that one is rounded to it.  Text is made from these
exact values, never from further floating-point arithmetic.
-/

namespace LinearTemporal
namespace Decimal

/-- The finite floating-point number `significand * 2 ^ exponent`, up to sign. -/
structure Binary64 where
  negative : Bool
  significand : Nat
  exponent : Int
  /-- The number below is only half as far away as the number above, as it is
  for powers of two. -/
  closeBelow : Bool
  deriving DecidableEq, Repr

namespace Binary64

/-!
Halfway to its neighbours lie the bounds of the interval that is rounded to a number.
At a power of two the number below is only half as far away as the one above.
-/

def ofFloat (x : Float) : Binary64 :=
  let bits := x.toBits.toNat
  let fraction := bits % (1 <<< 52)
  let biased : Nat := (bits >>> 52) % (1 <<< 11)
  let negative := decide (1 <<< 63 ≤ bits)
  if biased = 0 then
    ⟨negative, fraction, -1074, false⟩
  else
    ⟨negative, (1 <<< 52) + fraction, Int.ofNat biased - 1075, decide (fraction = 0 ∧ 1 < biased)⟩

def magnitude (x : Binary64) : Rat :=
  (x.significand : Rat) * (2 : Rat) ^ x.exponent

def lower (x : Binary64) : Rat :=
  x.magnitude - (2 : Rat) ^ (x.exponent - (if x.closeBelow then 2 else 1))

def upper (x : Binary64) : Rat :=
  x.magnitude + (2 : Rat) ^ (x.exponent - 1)

/-- Whether a fraction is rounded to `x`: it lies between the two halfway
points, which themselves go to even significands. -/
def roundsFrom (x : Binary64) (r : Rat) : Bool :=
  if x.significand % 2 = 0 then x.lower ≤ r && r ≤ x.upper
  else x.lower < r && r < x.upper

end Binary64

/-!
## The greatest numbers

Beyond the greatest finite number a bound takes the place of the next one.  It has 309
digits, so the number of digits of a decimal settles the question unless the two are
close.
-/

def overflowBound : Nat :=
  (1 <<< 1024) - (1 <<< 970)

def overflows (digits : Nat) (exponent : Int) : Bool :=
  let places := ((Nat.toDigits 10 digits).length : Int) + exponent
  if digits = 0 || places < 309 then false
  else if 309 < places then true
  else if 0 ≤ exponent then overflowBound ≤ digits * Nat.pow 10 exponent.toNat
  else overflowBound * Nat.pow 10 (-exponent).toNat ≤ digits

end Decimal
end LinearTemporal

import LinearTemporal.Decimal.Shortest

/-!
# Decimals as text

The two written forms that reports use: the shortest decimal, always with a
point or an exponent, and a decimal with one place after the point.
-/

namespace LinearTemporal
namespace Decimal

def zeros (n : Nat) : String :=
  String.ofList (List.replicate n '0')

/-- Positional from 10^-5 up to, and without, 10^16, and with an exponent
outside of this range. -/
def layout (d : Scaled) : String :=
  let digits := (Nat.repr d.digits).toList
  let count := digits.length
  -- where the point stands, counted from before the first digit
  let point := (count : Int) + d.exponent
  if 0 ≤ d.exponent ∧ point ≤ 16 then
    String.ofList digits ++ zeros d.exponent.toNat ++ ".0"
  else if 0 < point ∧ point ≤ 16 then
    String.ofList (digits.take point.toNat) ++ "." ++ String.ofList (digits.drop point.toNat)
  else if -5 < point ∧ point ≤ 0 then
    "0." ++ zeros (-point).toNat ++ String.ofList digits
  else
    let fraction := if count = 1 then "" else "." ++ String.ofList (digits.drop 1)
    String.ofList (digits.take 1) ++ fraction ++ "e" ++ toString (point - 1)

def signOf (x : Binary64) : String :=
  if x.negative then "-" else ""

def renderShortest (x : Float) : String :=
  let b := Binary64.ofFloat x
  signOf b ++ (if b.significand = 0 then "0.0" else layout (shortest b))

def roundHalfEven (r : Rat) : Int :=
  let low := r.floor
  let rest := r - low
  if rest < 1 / 2 then low
  else if 1 / 2 < rest then low + 1
  else if low % 2 = 0 then low
  else low + 1

/-- The exact value with one place after the point. -/
def renderTenths (x : Float) : String :=
  let b := Binary64.ofFloat x
  let tenths := (roundHalfEven (b.magnitude * 10)).toNat
  signOf b ++ toString (tenths / 10) ++ "." ++ toString (tenths % 10)

end Decimal
end LinearTemporal

import Mathlib.Algebra.Order.Field.Power
import Mathlib.Algebra.Order.Field.Rat
import LinearTemporal.Decimal.Layout
import LinearTemporal.Proofs.JsonGrammar

/-!
# Decimals are numbers

The shortest decimal of a floating-point number is written as a number of the grammar of JSON.
Its first digit is what has to be looked at: it is no zero, since nothing is rounded to a positive
number from as far below as zero, and since the least power of ten above a number is estimated
well enough.
-/

namespace LinearTemporal
namespace Decimal

/-!
## The first digit

Three binary digits are less than one decimal digit, and thirteen are less than four.
So the power of ten is not estimated too far from the number, and its first seventeen
digits are no zeros only.  Zero is too far away to be rounded to it.
-/

namespace Binary64

variable {x : Binary64}

theorem two_zpow_le_magnitude (hx : x.significand ≠ 0) :
    (2 : Rat) ^ ((x.significand.log2 : Int) + x.exponent) ≤ x.magnitude := by
  have hlog : ((2 ^ x.significand.log2 : Nat) : Rat) ≤ (x.significand : Rat) :=
    Nat.cast_le.mpr (Nat.log2_self_le hx)
  rw [Nat.cast_pow] at hlog
  rw [Rat.zpow_add (by decide), Rat.zpow_natCast]
  exact Rat.mul_le_mul_of_nonneg_right hlog (Rat.zpow_nonneg (by decide))

theorem lower_pos (hx : x.significand ≠ 0) : 0 < x.lower := by
  have hone : (1 : Rat) ≤ (x.significand : Rat) := Nat.one_le_cast.mpr (Nat.pos_of_ne_zero hx)
  have hmagnitude : (2 : Rat) ^ x.exponent ≤ x.magnitude := by
    have hmul := Rat.mul_le_mul_of_nonneg_right hone (Rat.zpow_nonneg (n := x.exponent)
      (show (0 : Rat) ≤ 2 by decide))
    rwa [Rat.one_mul] at hmul
  have hstep : (2 : Rat) ^ (x.exponent - (if x.closeBelow then 2 else 1)) < 2 ^ x.exponent := by
    apply zpow_lt_zpow_right₀ (by decide)
    split <;> omega
  exact sub_pos.mpr (lt_of_lt_of_le hstep hmagnitude)

theorem roundsFrom_zero (hx : x.significand ≠ 0) : x.roundsFrom 0 = false := by
  have hlower := lower_pos hx
  unfold roundsFrom
  split
  · rw [decide_eq_false (not_le_of_gt hlower), Bool.false_and]
  · rw [decide_eq_false (lt_asymm hlower), Bool.false_and]

end Binary64

theorem digits_pos_of_onGrid? {x : Binary64} (hx : x.significand ≠ 0) {exponent : Int}
    {d : Scaled} (h : onGrid? x exponent = some d) : 0 < d.digits := by
  have hpos {low : Nat} (hrounds : x.roundsFrom (Scaled.mk low exponent).value = true) :
      0 < low := by
    rw [Nat.pos_iff_ne_zero]
    rintro rfl
    have hzero : (Scaled.mk 0 exponent).value = 0 := Rat.zero_mul _
    rw [hzero, Binary64.roundsFrom_zero hx] at hrounds
    cases hrounds
  unfold onGrid? at h
  dsimp only at h
  split at h
  · rename_i hdown _
    cases h
    split
    · exact hpos hdown
    · exact Nat.succ_pos _
  · rename_i hdown _
    cases h
    exact hpos hdown
  · cases h
    exact Nat.succ_pos _
  · cases h

theorem digits_strip_pos {d : Scaled} (h : 0 < d.digits) (fuel : Nat) :
    0 < (d.strip fuel).digits := by
  induction fuel generalizing d with
  | zero => exact h
  | succ fuel ih =>
      unfold Scaled.strip
      split
      · apply ih
        dsimp only
        omega
      · exact h

theorem ten_pow_le_two_pow {j n : Nat} (h : 10 * j ≤ 3 * n) : 10 ^ j ≤ 2 ^ n := by
  rw [← Nat.pow_le_pow_iff_left (n := 10) (by decide)]
  calc (10 ^ j) ^ 10 = 10 ^ (10 * j) := by rw [← Nat.pow_mul, Nat.mul_comm]
    _ ≤ 10 ^ (3 * n) := Nat.pow_le_pow_right (by decide) h
    _ = 1000 ^ n := Nat.pow_mul 10 3 n
    _ ≤ 1024 ^ n := Nat.pow_le_pow_left (by decide) n
    _ = 2 ^ (10 * n) := (Nat.pow_mul 2 10 n).symm
    _ = (2 ^ n) ^ 10 := by rw [← Nat.pow_mul, Nat.mul_comm]

theorem two_pow_le_ten_pow {m j : Nat} (h : 4 * m ≤ 13 * j) : 2 ^ m ≤ 10 ^ j := by
  rw [← Nat.pow_le_pow_iff_left (n := 13) (by decide)]
  calc (2 ^ m) ^ 13 = 2 ^ (13 * m) := by rw [← Nat.pow_mul, Nat.mul_comm]
    _ = 8192 ^ m := Nat.pow_mul 2 13 m
    _ ≤ 10000 ^ m := Nat.pow_le_pow_left (by decide) m
    _ = 10 ^ (4 * m) := (Nat.pow_mul 10 4 m).symm
    _ ≤ 10 ^ (13 * j) := Nat.pow_le_pow_right (by decide) h
    _ = (10 ^ j) ^ 13 := by rw [← Nat.pow_mul, Nat.mul_comm]

theorem ten_zpow_le_two_zpow {n : Int} (hlow : -1200 ≤ n) (hhigh : n ≤ 1200) :
    (10 : Rat) ^ (n * 30103 / 100000 - 17) ≤ 2 ^ n := by
  rcases Int.eq_nat_or_neg n with ⟨m, rfl | rfl⟩
  · have hpow : ((10 ^ (m * 30103 / 100000 - 17) : Nat) : Rat) ≤ ((2 ^ m : Nat) : Rat) :=
      Nat.cast_le.mpr (ten_pow_le_two_pow (by omega))
    rw [Nat.cast_pow, Nat.cast_pow, ← Rat.zpow_natCast, ← Rat.zpow_natCast] at hpow
    exact (zpow_le_zpow_right₀ (by decide) (by omega)).trans hpow
  · have hpow : ((2 ^ m : Nat) : Rat) ≤ ((10 ^ ((m * 30103 + 99999) / 100000 + 17) : Nat) : Rat) :=
      Nat.cast_le.mpr (two_pow_le_ten_pow (by omega))
    rw [Nat.cast_pow, Nat.cast_pow, ← Rat.zpow_natCast, ← Rat.zpow_natCast] at hpow
    have hinv := inv_anti₀ (Rat.zpow_pos (by decide)) hpow
    rw [← Rat.zpow_neg, ← Rat.zpow_neg] at hinv
    exact (zpow_le_zpow_right₀ (by decide) (by omega)).trans hinv

structure Binary64.IsBounded (x : Binary64) : Prop where
  significand_lt : x.significand < 1 <<< 53
  neg_le_exponent : -1074 ≤ x.exponent
  exponent_le : x.exponent ≤ 972

theorem Binary64.isBounded_ofFloat (x : Float) : (Binary64.ofFloat x).IsBounded := by
  unfold ofFloat
  dsimp only
  have hfraction : x.toBits.toNat % (1 <<< 52) < 1 <<< 52 := Nat.mod_lt _ (by decide)
  have hbiased : (x.toBits.toNat >>> 52) % (1 <<< 11) < 1 <<< 11 := Nat.mod_lt _ (by decide)
  generalize x.toBits.toNat % (1 <<< 52) = fraction at hfraction ⊢
  generalize (x.toBits.toNat >>> 52) % (1 <<< 11) = biased at hbiased ⊢
  have hbits : (1 <<< 52) + (1 <<< 52) = 1 <<< 53 := by decide
  have hplaces : 1 <<< 11 = 2048 := by decide
  split
  · constructor <;> dsimp only <;> omega
  · constructor <;> dsimp only [Int.ofNat_eq_natCast] <;> omega

theorem ten_zpow_le_magnitude {x : Binary64} (hbounded : x.IsBounded) (hx : x.significand ≠ 0) :
    (10 : Rat) ^ (magnitudeExponent x - 17) ≤ x.magnitude := by
  have hlog : x.significand.log2 < 53 := by
    rw [Nat.log2_lt hx, ← Nat.one_shiftLeft]
    exact hbounded.significand_lt
  have hbelow {k : Int} (h : ¬ decide (x.magnitude < (10 : Rat) ^ k) = true) :
      (10 : Rat) ^ (k + 1 - 17) ≤ x.magnitude := by
    have hle : (10 : Rat) ^ k ≤ x.magnitude := not_lt.mp (fun hlt => h (decide_eq_true hlt))
    exact (zpow_le_zpow_right₀ (by decide) (by omega)).trans hle
  unfold magnitudeExponent
  dsimp only
  split
  · have hestimate := ten_zpow_le_two_zpow (n := (x.significand.log2 : Int) + x.exponent)
      (by have := hbounded.neg_le_exponent; omega) (by have := hbounded.exponent_le; omega)
    exact hestimate.trans (Binary64.two_zpow_le_magnitude hx)
  · rename_i habove
    split
    · exact hbelow habove
    · rename_i habove
      have hlast := hbelow habove
      rwa [Int.add_assoc] at hlast

theorem digits_shortest_pos {x : Binary64} (hbounded : x.IsBounded) (hx : x.significand ≠ 0) :
    0 < (shortest x).digits := by
  apply digits_strip_pos
  cases hfound : (List.range 17).findSome? (fun (n : Nat) =>
      onGrid? x (magnitudeExponent x - n - 1)) with
  | some d =>
      rcases List.exists_of_findSome?_eq_some hfound with ⟨n, -, hgrid⟩
      exact digits_pos_of_onGrid? hx hgrid
  | none =>
      rw [Option.getD_none]
      have hpow : (0 : Rat) < 10 ^ (magnitudeExponent x - 17) := Rat.zpow_pos (by decide)
      have hone : (1 : Rat) ≤ x.magnitude / 10 ^ (magnitudeExponent x - 17) := by
        rw [one_le_div₀ hpow]
        exact ten_zpow_le_magnitude hbounded hx
      have hfloor : 1 ≤ (x.magnitude / 10 ^ (magnitudeExponent x - 17)).floor := by
        rw [Rat.le_floor_iff]
        exact hone
      dsimp only
      omega

/-!
## The text

Digits that do not start with a zero are a whole number, and the layout puts a zero
before the point where there is no other digit.
-/

open Json

section

variable {cs : List Char}

theorem isDigits_append {ds : List Char} (h : IsDigits cs) (hrest : ∀ c ∈ ds, c.isDigit = true) :
    IsDigits (cs ++ ds) :=
  ⟨List.append_ne_nil_of_left_ne_nil h.1 ds, List.forall_mem_append.mpr ⟨h.2, hrest⟩⟩

theorem isDigits_take (h : IsDigits cs) {n : Nat} (hn : 0 < n) : IsDigits (cs.take n) := by
  refine ⟨?_, fun c hc => h.2 c (List.mem_of_mem_take hc)⟩
  rw [ne_eq, List.take_eq_nil_iff, not_or]
  exact ⟨hn.ne', h.1⟩

theorem isDigits_drop (h : IsDigits cs) {n : Nat} (hn : n < cs.length) : IsDigits (cs.drop n) :=
  ⟨fun hnil => absurd (List.drop_eq_nil_iff.mp hnil) (Nat.not_le_of_lt hn),
    fun c hc => h.2 c (List.mem_of_mem_drop hc)⟩

theorem isDigit_of_mem_zeros {n : Nat} : ∀ c ∈ List.replicate n '0', c.isDigit = true := by
  intro c hc
  rw [List.eq_of_mem_replicate hc]
  decide

theorem isDigits_zeros_append (n : Nat) (h : IsDigits cs) :
    IsDigits (List.replicate n '0' ++ cs) :=
  ⟨List.append_ne_nil_of_right_ne_nil _ h.1,
    List.forall_mem_append.mpr ⟨isDigit_of_mem_zeros, h.2⟩⟩

theorem isWhole_of_head? (h : IsDigits cs) (hhead : cs.head? ≠ some '0') : IsWhole cs :=
  ⟨h, fun hzero => absurd hzero hhead⟩

theorem isExponent_of_isInteger {value : Int} (h : IsInteger value cs) :
    IsExponent ('e' :: cs) := by
  cases h with
  | natural hwhole => exact IsExponent.unsigned (Or.inl rfl) hwhole.digits
  | negative hwhole => exact IsExponent.signed (Or.inl rfl) (Or.inr rfl) hwhole.digits

end

theorem isUnsigned_layout {d : Scaled} (h : 0 < d.digits) : IsUnsigned (layout d).toList := by
  have hdigits := isDigits_toDigits d.digits
  have hhead := head?_toDigits h
  unfold layout
  rw [Nat.toList_repr]
  generalize Nat.toDigits 10 d.digits = digits at hdigits hhead
  have hlength : 0 < digits.length := List.length_pos_iff.mpr hdigits.1
  have hfirst {n : Nat} (hn : 0 < n) : IsWhole (digits.take n) :=
    isWhole_of_head? (isDigits_take hdigits hn) (by rwa [List.head?_take, if_neg hn.ne'])
  dsimp only
  generalize hpoint : (digits.length : Int) + d.exponent = point
  split
  · have hwhole : IsWhole (digits ++ List.replicate d.exponent.toNat '0') := by
      refine isWhole_of_head? (isDigits_append hdigits isDigit_of_mem_zeros) ?_
      rcases List.exists_cons_of_ne_nil hdigits.1 with ⟨c, cs, rfl⟩
      exact hhead
    have htext := IsUnsigned.parts hwhole (IsFraction.digits (isDigits_toDigits 0)) IsExponent.none
    simpa [zeros] using htext
  · split
    · have hplace : point.toNat < digits.length := by omega
      have htext := IsUnsigned.parts (hfirst (n := point.toNat) (by omega))
        (IsFraction.digits (isDigits_drop hdigits hplace)) IsExponent.none
      simpa using htext
    · split
      · have htext := IsUnsigned.parts (isWhole_toDigits 0)
          (IsFraction.digits (isDigits_zeros_append (-point).toNat hdigits)) IsExponent.none
        simpa [zeros] using htext
      · have hexponent := isExponent_of_isInteger (isInteger_toString (point - 1))
        split
        · have htext := IsUnsigned.parts (hfirst Nat.one_pos) IsFraction.none hexponent
          simpa using htext
        · have htext := IsUnsigned.parts (hfirst Nat.one_pos)
            (IsFraction.digits (isDigits_drop hdigits (n := 1) (by omega))) hexponent
          simpa using htext

/-- A floating-point number is written as a number. -/
theorem isNumber_renderShortest (x : Float) : IsNumber (renderShortest x).toList := by
  have hunsigned : IsUnsigned (if (Binary64.ofFloat x).significand = 0 then "0.0"
      else layout (shortest (Binary64.ofFloat x))).toList := by
    split
    · exact IsUnsigned.parts (isWhole_toDigits 0) (IsFraction.digits (isDigits_toDigits 0))
        IsExponent.none
    · rename_i hx
      exact isUnsigned_layout (digits_shortest_pos (Binary64.isBounded_ofFloat x) hx)
  unfold renderShortest
  rw [String.toList_append, signOf]
  split
  · exact IsNumber.negative hunsigned
  · exact IsNumber.unsigned hunsigned

end Decimal
end LinearTemporal

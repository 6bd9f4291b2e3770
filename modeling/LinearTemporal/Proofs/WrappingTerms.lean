import Mathlib.Data.Int.ModEq
import LinearTemporal.Term

/-!
# Terms evaluate exactly, up to the width of a word

Every operation wraps by itself.  Wrapping keeps the residue modulo 2^64, and the operations
respect residues, so what a term wraps on the way does not show in its value: it is the word
with the residue of the exact integer, and that integer itself wherever it fits into a word.
-/

namespace LinearTemporal

/-!
## Words and residues

Every residue is that of one word only, so an integer within the range of a word is the
word with its residue.
-/

theorem toInt_modEq_toInt_iff {a b : Int64} : a.toInt ≡ b.toInt [ZMOD 2 ^ 64] ↔ a = b := by
  constructor
  · intro h
    have hreduced : a.toInt.bmod (2 ^ 64) = b.toInt.bmod (2 ^ 64) := by
      rw [← Int.emod_bmod, ← Int.emod_bmod b.toInt]
      exact congrArg (Int.bmod · (2 ^ 64)) h
    exact Int64.toInt_inj.mp (a.toInt_bmod.symm.trans (hreduced.trans b.toInt_bmod))
  · rintro rfl
    exact Int.ModEq.refl _

theorem bmod_modEq (n : Int) : n.bmod (2 ^ 64) ≡ n [ZMOD 2 ^ 64] :=
  Int.bmod_emod

theorem toInt_eq_of_modEq {a : Int64} {n : Int} (h : a.toInt ≡ n [ZMOD 2 ^ 64])
    (hlower : Int64.minValue.toInt ≤ n) (hupper : n ≤ Int64.maxValue.toInt) : a.toInt = n := by
  have hword : (Int64.ofInt n).toInt = n := by
    apply Int64.toInt_ofInt_of_le
    · rwa [Int64.toInt_minValue] at hlower
    · rw [Int64.toInt_maxValue] at hupper
      exact Int.lt_of_le_sub_one hupper
  rw [← hword] at h ⊢
  rw [toInt_modEq_toInt_iff.mp h]

/-!
## Operations

On integers of any size an operation has the residue that it has on words.
-/

namespace Arithmetic

def applyExact : Arithmetic → Int → Int → Int
  | add, a, b => a + b
  | sub, a, b => a - b
  | mul, a, b => a * b

theorem apply_modEq (op : Arithmetic) (a b : Int64) :
    (op.apply a b).toInt ≡ op.applyExact a.toInt b.toInt [ZMOD 2 ^ 64] := by
  cases op with
  | add =>
      rw [apply, Int64.toInt_add]
      exact bmod_modEq _
  | sub =>
      rw [apply, Int64.toInt_sub]
      exact bmod_modEq _
  | mul =>
      rw [apply, Int64.toInt_mul]
      exact bmod_modEq _

theorem applyExact_modEq (op : Arithmetic) {a b c d : Int} (hab : a ≡ b [ZMOD 2 ^ 64])
    (hcd : c ≡ d [ZMOD 2 ^ 64]) : op.applyExact a c ≡ op.applyExact b d [ZMOD 2 ^ 64] := by
  cases op with
  | add => exact hab.add hcd
  | sub => exact hab.sub hcd
  | mul => exact hab.mul hcd

end Arithmetic

/-!
## Terms

By induction over the term, up to residues; the range is looked at only once, at the
end.
-/

namespace Term

/-- The value of a term over integers of any size. -/
def exactValue (valuation : String → Int) : Term → Int
  | var name => valuation name
  | int value => value.toInt
  | neg body => -body.exactValue valuation
  | binary op left right => op.applyExact (left.exactValue valuation) (right.exactValue valuation)

theorem evaluate_modEq (valuation : String → Int64) (t : Term) :
    (t.evaluate valuation).toInt ≡ t.exactValue (fun name => (valuation name).toInt)
      [ZMOD 2 ^ 64] := by
  induction t with
  | var name => exact Int.ModEq.refl _
  | int value => exact Int.ModEq.refl _
  | neg body ih =>
      rw [evaluate, Int64.toInt_neg]
      exact (bmod_modEq _).trans ih.neg
  | binary op left right ihl ihr =>
      exact (op.apply_modEq _ _).trans (op.applyExact_modEq ihl ihr)

/-- The value of a term is the one word that is congruent to its exact value modulo 2^64, and
it is the exact value itself exactly if a word can hold that, whatever the parts come to. -/
theorem evaluate_exact (valuation : String → Int64) (t : Term) :
    let exact := t.exactValue (fun name => (valuation name).toInt)
    (∀ value : Int64, value = t.evaluate valuation ↔ value.toInt ≡ exact [ZMOD 2 ^ 64]) ∧
    ((t.evaluate valuation).toInt = exact ↔
      Int64.minValue.toInt ≤ exact ∧ exact ≤ Int64.maxValue.toInt) := by
  intro exact
  have hmod : (t.evaluate valuation).toInt ≡ exact [ZMOD 2 ^ 64] := t.evaluate_modEq valuation
  refine ⟨fun value => ⟨?_, fun hvalue => ?_⟩, fun hexact => ?_, fun hrange => ?_⟩
  · rintro rfl
    exact hmod
  · exact toInt_modEq_toInt_iff.mp (hvalue.trans hmod.symm)
  · rw [← hexact]
    exact ⟨Int64.minValue_le_toInt _, Int64.toInt_le _⟩
  · exact toInt_eq_of_modEq hmod hrange.1 hrange.2

example :
    (neg (int Int64.minValue)).evaluate (fun _ => 0) = Int64.minValue ∧
    (binary .sub (binary .add (var "x") (int 1)) (int 2)).evaluate (fun _ => Int64.maxValue) =
      Int64.maxValue - 1 := by
  decide

end Term
end LinearTemporal

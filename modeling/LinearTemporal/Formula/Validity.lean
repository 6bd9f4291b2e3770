import LinearTemporal.Formula.Order
import LinearTemporal.Formula.Text

/-!
# Canonical shape

`validate` checks that every junction of a formula is in canonical shape and
reports the first one that is not.
-/

namespace LinearTemporal

/-!
A violation names the junction and what is wrong with it.  The number and the order of
its operands come first, then the operands themselves from the left.
-/

inductive JunctionFault where
  | operandCount (count : Nat)
  | nestedSameKind
  | unordered
  deriving DecidableEq, Repr

namespace JunctionFault

def message : JunctionFault → String
  | operandCount count => "junction with " ++ toString count ++ " operand(s)"
  | nestedSameKind => "junction directly nests a junction of the same kind"
  | unordered => "junction operands are not in canonical order"

end JunctionFault

structure InvariantViolation where
  junction : Formula
  fault : JunctionFault
  deriving DecidableEq, Repr

namespace InvariantViolation

def message (v : InvariantViolation) : String :=
  "Formula invariant violated: " ++ v.fault.message ++ " (in `" ++ v.junction.render ++ "`)"

end InvariantViolation

namespace Formula

def isJunction (k : Connective) : Formula → Bool
  | junction l _ => l = k
  | _ => false

mutual

def validate : Formula → Except InvariantViolation Unit
  | not body => body.validate
  | next body => body.validate
  | always body => body.validate
  | eventually body => body.validate
  | untl left right => do
      left.validate
      right.validate
  | release left right => do
      left.validate
      right.validate
  | junction k operands =>
      if operands.length < 2 then
        .error ⟨junction k operands, .operandCount operands.length⟩
      else if !Ascending.check operands then
        .error ⟨junction k operands, .unordered⟩
      else
        validateOperands k (junction k operands) operands
  | _ => .ok ()

def validateOperands (k : Connective) (whole : Formula) :
    List Formula → Except InvariantViolation Unit
  | [] => .ok ()
  | f :: fs =>
      if f.isJunction k then
        .error ⟨whole, .nestedSameKind⟩
      else do
        f.validate
        validateOperands k whole fs

end

/-- All junctions of the formula are in canonical shape. -/
def IsValid (f : Formula) : Prop :=
  f.validate = .ok ()

instance (f : Formula) : Decidable f.IsValid :=
  match h : f.validate with
  | .ok () => .isTrue h
  | .error _ => .isFalse (fun h' => by rw [IsValid, h] at h'; cases h')

end Formula
end LinearTemporal

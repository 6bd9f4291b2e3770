import LinearTemporal.Formula.Order

/-!
# Building junctions

`join` builds a junction in canonical shape: operands that are junctions with
the same connective are replaced by their own operands, repetitions are dropped,
the rest is put in canonical order, and a junction of fewer than two operands is
not built at all.  `withChildren` and `normalize` rebuild other formulas through
it.
-/

namespace LinearTemporal
namespace Formula

/-!
What a formula contributes to a junction is its own operands if it is a junction with
the same connective, and itself otherwise.  `collapse` puts a list together that needs
no flattening.
-/

def operandsUnder (k : Connective) : Formula → List Formula
  | junction l operands => if l = k then operands else [junction l operands]
  | f => [f]

def collapse (k : Connective) : List Formula → Formula
  | [] => const k.neutral
  | [f] => f
  | operands => junction k operands

/-- The junction of any formulas, in canonical shape. -/
def join (k : Connective) (fs : List Formula) : Formula :=
  collapse k (Ascending.ofList (fs.flatMap (operandsUnder k)))

def conj (fs : List Formula) : Formula :=
  join .and fs

def disj (fs : List Formula) : Formula :=
  join .or fs

/-- The formula with its immediate parts replaced.  Where nothing changes the
formula stays as it is; a changed junction is put in canonical shape.  The list
has to have as many members as there are parts, or nothing is replaced. -/
def withChildren (f : Formula) (parts : List Formula) : Formula :=
  if parts = f.children then f
  else
    match f, parts with
    | not _, [body] => not body
    | next _, [body] => next body
    | always _, [body] => always body
    | eventually _, [body] => eventually body
    | untl _ _, [left, right] => untl left right
    | release _ _, [left, right] => release left right
    | junction k _, operands => join k operands
    | f, _ => f

/-!
From the leaves up, every junction is built again.
-/

mutual

def normalize : Formula → Formula
  | not body => not body.normalize
  | next body => next body.normalize
  | always body => always body.normalize
  | eventually body => eventually body.normalize
  | untl left right => untl left.normalize right.normalize
  | release left right => release left.normalize right.normalize
  | junction k operands => join k (normalizeAll operands)
  | f => f

def normalizeAll : List Formula → List Formula
  | [] => []
  | f :: fs => f.normalize :: normalizeAll fs

end

theorem normalizeAll_eq_map (fs : List Formula) :
    normalizeAll fs = fs.map normalize := by
  induction fs with
  | nil => rfl
  | cons f fs ih => simp [normalizeAll, ih]

end Formula
end LinearTemporal

import LinearTemporal.Ascending
import LinearTemporal.Formula.Basic

/-!
# Sizes, depths and names

Counts over the tree of a formula, and the names that occur in it.
-/

namespace LinearTemporal
namespace Formula

/-!
## Size and depth

The size is the number of nodes, where a junction counts once besides its operands.  A
leaf has depth one, and the temporal depth counts nested temporal operators only.
-/

mutual

def size : Formula → Nat
  | not body => body.size + 1
  | next body => body.size + 1
  | always body => body.size + 1
  | eventually body => body.size + 1
  | untl left right => left.size + right.size + 1
  | release left right => left.size + right.size + 1
  | junction _ operands => sizeAll operands + 1
  | _ => 1

def sizeAll : List Formula → Nat
  | [] => 0
  | f :: fs => f.size + sizeAll fs

end

mutual

def depth : Formula → Nat
  | not body => body.depth + 1
  | next body => body.depth + 1
  | always body => body.depth + 1
  | eventually body => body.depth + 1
  | untl left right => max left.depth right.depth + 1
  | release left right => max left.depth right.depth + 1
  | junction _ operands => depthAll operands + 1
  | _ => 1

def depthAll : List Formula → Nat
  | [] => 0
  | f :: fs => max f.depth (depthAll fs)

end

mutual

def temporalDepth : Formula → Nat
  | not body => body.temporalDepth
  | next body => body.temporalDepth + 1
  | always body => body.temporalDepth + 1
  | eventually body => body.temporalDepth + 1
  | untl left right => max left.temporalDepth right.temporalDepth + 1
  | release left right => max left.temporalDepth right.temporalDepth + 1
  | junction _ operands => temporalDepthAll operands
  | _ => 0

def temporalDepthAll : List Formula → Nat
  | [] => 0
  | f :: fs => max f.temporalDepth (temporalDepthAll fs)

end

theorem size_pos (f : Formula) : 0 < f.size := by
  cases f <;> simp [size]

theorem size_le_sizeAll {f : Formula} {fs : List Formula} (h : f ∈ fs) :
    f.size ≤ sizeAll fs := by
  induction h with
  | head fs =>
      simp [sizeAll]
  | tail g _ ih =>
      simp only [sizeAll]
      omega

/-!
## Names

The lists name what occurs from left to right and with repetitions; the sets name it
once.
-/

mutual

def propositionNames : Formula → List String
  | literal name _ => [name]
  | not body => body.propositionNames
  | next body => body.propositionNames
  | always body => body.propositionNames
  | eventually body => body.propositionNames
  | untl left right => left.propositionNames ++ right.propositionNames
  | release left right => left.propositionNames ++ right.propositionNames
  | junction _ operands => propositionNamesAll operands
  | _ => []

def propositionNamesAll : List Formula → List String
  | [] => []
  | f :: fs => f.propositionNames ++ propositionNamesAll fs

end

mutual

def variableNames : Formula → List String
  | atom left _ right => left.variableNames ++ right.variableNames
  | not body => body.variableNames
  | next body => body.variableNames
  | always body => body.variableNames
  | eventually body => body.variableNames
  | untl left right => left.variableNames ++ right.variableNames
  | release left right => left.variableNames ++ right.variableNames
  | junction _ operands => variableNamesAll operands
  | _ => []

def variableNamesAll : List Formula → List String
  | [] => []
  | f :: fs => f.variableNames ++ variableNamesAll fs

end

def propositions (f : Formula) : OrderedSet String :=
  OrderedSet.ofList f.propositionNames

def integerVariables (f : Formula) : OrderedSet String :=
  OrderedSet.ofList f.variableNames

/-!
## Operators

Each node is counted under the word for the operator at its root.
-/

def operatorName : Formula → String
  | const _ => "constant"
  | literal .. => "literal"
  | atom .. => "atom"
  | not _ => "not"
  | next _ => "next"
  | always _ => "globally"
  | eventually _ => "finally"
  | untl .. => "until"
  | release .. => "release"
  | junction .and _ => "and"
  | junction .or _ => "or"

mutual

def operatorNames : Formula → List String
  | not body => "not" :: body.operatorNames
  | next body => "next" :: body.operatorNames
  | always body => "globally" :: body.operatorNames
  | eventually body => "finally" :: body.operatorNames
  | untl left right => "until" :: (left.operatorNames ++ right.operatorNames)
  | release left right => "release" :: (left.operatorNames ++ right.operatorNames)
  | junction k operands => (junction k operands).operatorName :: operatorNamesAll operands
  | f => [f.operatorName]

def operatorNamesAll : List Formula → List String
  | [] => []
  | f :: fs => f.operatorNames ++ operatorNamesAll fs

end

def operatorCounts (f : Formula) : OrderedMap String Nat :=
  OrderedMap.tally f.operatorNames

/-!
## Suffix invariance

A formula such as `always eventually f` is true at all positions of a word or at none,
and so is what is composed of such formulas.  The condition looks at operators only and
is not a necessary one.
-/

mutual

/-- A sufficient condition for a formula to have one truth value at all
positions of a word: `always eventually`, `eventually always` and constants, and
anything composed of such. -/
def isSuffixInvariant : Formula → Bool
  | const _ => true
  | literal .. => false
  | atom .. => false
  | always body => body.isEventually || body.isSuffixInvariant
  | eventually body => body.isAlways || body.isSuffixInvariant
  | not body => body.isSuffixInvariant
  | next body => body.isSuffixInvariant
  | untl left right => left.isSuffixInvariant && right.isSuffixInvariant
  | release left right => left.isSuffixInvariant && right.isSuffixInvariant
  | junction _ operands => areSuffixInvariant operands

def areSuffixInvariant : List Formula → Bool
  | [] => true
  | f :: fs => f.isSuffixInvariant && areSuffixInvariant fs

end

end Formula
end LinearTemporal

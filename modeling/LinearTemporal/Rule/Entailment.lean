import LinearTemporal.Formula.Measure
import LinearTemporal.Formula.Order

/-!
# Syntactic entailment

`implies f g` is a sufficient condition for `g` to hold wherever `f` does.  It
looks at the roots of both formulas and descends into their parts; it knows no
rule that would need a formula that is not a part of either.

The alternatives overlap, and one that succeeds spares the later ones, so their
order decides how much work there is: junctions are taken apart first, then what
`f` says about every position, then what `g` asks for, and last the operators of
`f` that leave a choice.
-/

namespace LinearTemporal
namespace Formula

def implies (f g : Formula) : Bool :=
  decide (f = g) || g.isTrue || f.isFalse ||
  (match g with
  | junction .or gs => gs.attach.any (fun ⟨g, _⟩ => implies f g)
  | junction .and gs => gs.attach.all (fun ⟨g, _⟩ => implies f g)
  | _ => false) ||
  (match f with
  | junction .and fs => fs.attach.any (fun ⟨f, _⟩ => implies f g)
  | junction .or fs => fs.attach.all (fun ⟨f, _⟩ => implies f g)
  | always body => implies body g
  | _ => false) ||
  (match g with
  | next later =>
      (f.isAlways && implies f later) ||
      (match f with
      | next later' => implies later' later
      | _ => false)
  | always body => f.isAlways && implies f body
  | eventually body =>
      implies f body ||
      (match f with
      | eventually body' => implies body' body
      | _ => false)
  | untl _ right => implies f right
  | release left right => implies f right && (f.isAlways || implies f left)
  | _ => false) ||
  (match f with
  | untl left right => implies left g && implies right g
  | release _ right => implies right g
  | _ => false)
termination_by f.size + g.size
decreasing_by
  all_goals simp only [size]
  all_goals first
    | omega
    | (rename_i h; have := size_le_sizeAll h; omega)

end Formula
end LinearTemporal

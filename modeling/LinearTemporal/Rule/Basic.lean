import LinearTemporal.Formula.Junction

/-!
# Rules

A rule puts another formula in place of one, going by what stands at its root.  A
rule whose outcome is the formula it was given does not apply.
-/

namespace LinearTemporal

structure Rule where
  name : String
  description : String
  transform : Formula → Option Formula

namespace Rule

/-- The outcome of the rule, where it changes something. -/
def apply (rule : Rule) (f : Formula) : Option Formula :=
  match rule.transform f with
  | some g => if g = f then none else some g
  | none => none

def firstApplicable (f : Formula) : List Rule → Option (Rule × Formula)
  | [] => none
  | rule :: rules =>
      match rule.apply f with
      | some g => some (rule, g)
      | none => firstApplicable f rules

end Rule

end LinearTemporal

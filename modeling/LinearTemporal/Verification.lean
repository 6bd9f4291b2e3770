import LinearTemporal.Formula.Measure
import LinearTemporal.Formula.Text
import LinearTemporal.Word.Enumeration
import LinearTemporal.Word.Text

/-!
# Bounded verification

Two formulas are compared on all words of a bounded set: the lassos over their
propositions with a stem of at most one state and a short cycle, in which every
variable keeps one small value throughout.  Formulas with too many names are
refused, since the set grows exponentially.
-/

namespace LinearTemporal
namespace Verification

def maxPropositions : Nat := 6

def maxVariables : Nat := 2

def variableValues : List Int64 :=
  [-2, -1, 0, 1, 2]

inductive Failure where
  | tooManyPropositions (count : Nat)
  | tooManyVariables (count : Nat)
  | differ (before after : Formula) (word : Lasso)

namespace Failure

def message : Failure → String
  | tooManyPropositions count =>
      "--verify supports at most " ++ toString maxPropositions ++
        " propositions, the formula has " ++ toString count
  | tooManyVariables count =>
      "--verify supports at most " ++ toString maxVariables ++
        " numeric variables, the formula has " ++ toString count
  | differ before after word =>
      "Verification failed: `" ++ before.render ++ "` and `" ++ after.render ++
        "` differ on " ++ word.render

end Failure

/-!
A variable keeps its value throughout a word, and each takes all of the values in turn.
Cycles of two states are looked at only if there are few propositions.
-/

def assignments (values : List Int64) : List String → List (List (String × Int64))
  | [] => [[]]
  | name :: names =>
      values.flatMap (fun value => (assignments values names).map ((name, value) :: ·))

def cycleBound (propositionCount : Nat) : Nat :=
  if propositionCount ≤ 3 then 2 else 1

def words (propositions integerVariables : List String) : List Lasso :=
  let bare := Lasso.bounded propositions 1 (cycleBound propositions.length)
  (assignments variableValues integerVariables).flatMap (fun assignment =>
    bare.map (fun w => w.map (fun s => s.assignAll assignment)))

/-- Compare two formulas; a success says on how many words. -/
def verify (before after : Formula) : Except Failure Nat :=
  let propositions := before.propositions.union after.propositions
  let integerVariables := before.integerVariables.union after.integerVariables
  if maxPropositions < propositions.size then
    .error (.tooManyPropositions propositions.size)
  else if maxVariables < integerVariables.size then
    .error (.tooManyVariables integerVariables.size)
  else
    let candidates := words propositions.toList integerVariables.toList
    match Lasso.findDisagreement before after candidates with
    | some word => .error (.differ before after word)
    | none => .ok candidates.length

end Verification
end LinearTemporal

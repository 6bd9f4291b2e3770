import LinearTemporal.Json.Basic
import LinearTemporal.Word.Lasso

/-!
# Words as JSON documents

A state is an object with its propositions and its variables, or a list of the
two; a lasso is an object with the states of its stem and of its cycle.
-/

namespace LinearTemporal

namespace State

def toJson (s : State) : Json :=
  .object
    [("props", .ofStrings s.propositions.toList),
      ("vars", .object (s.values.entries.map (fun entry => (entry.1, .ofInt64 entry.2))))]

def valuesOfJson? (document : Json) : Option (OrderedMap String Int64) := do
  let members ← document.object?
  let entries ← members.mapM (fun member => member.2.int64?.map (fun value => (member.1, value)))
  return OrderedMap.ofList entries

def ofParts? (propositions values : Json) : Option State := do
  let names ← propositions.strings?
  let values ← valuesOfJson? values
  return ⟨OrderedSet.ofList names, values⟩

def ofJson? : Json → Option State
  | .object members => do
      ofParts? (← members.lookup "props") (← members.lookup "vars")
  | .array [propositions, values] => ofParts? propositions values
  | _ => none

end State

namespace Lasso

def toJson (w : Lasso) : Json :=
  .object
    [("prefix", .array (w.stem.map State.toJson)), ("cycle", .array (w.cycle.map State.toJson))]

end Lasso

end LinearTemporal

import LinearTemporal.Ascending

/-!
# States

A state says which propositions are true and which integer each variable has.
What it does not name is false, or zero.
-/

namespace LinearTemporal

structure State where
  propositions : OrderedSet String
  values : OrderedMap String Int64
  deriving DecidableEq

namespace State

def ofPropositions (names : List String) : State :=
  ⟨OrderedSet.ofList names, OrderedMap.empty⟩

def assign (s : State) (name : String) (value : Int64) : State :=
  { s with values := s.values.insert name value }

def assignAll (s : State) (assignment : List (String × Int64)) : State :=
  assignment.foldl (fun s entry => s.assign entry.1 entry.2) s

def holds (s : State) (name : String) : Bool :=
  s.propositions.contains name

def value (s : State) (name : String) : Int64 :=
  s.values.getD name 0

end State

end LinearTemporal

import LinearTemporal.Word.Lasso

/-!
# The written form of words

A state lists its true propositions and the values of its variables in braces;
a lasso lists the states of its stem, then those of its cycle in parentheses.
-/

namespace LinearTemporal

namespace State

def render (s : State) : String :=
  let values := s.values.entries.map (fun entry => entry.1 ++ "=" ++ toString entry.2.toInt)
  "\x7b" ++ String.intercalate ", " (s.propositions.toList ++ values) ++ "\x7d"

end State

namespace Lasso

def render (w : Lasso) : String :=
  String.join (w.stem.map (fun s => s.render ++ " ")) ++
    "(" ++ String.intercalate " " (w.cycle.map State.render) ++ ")^w"

end Lasso

end LinearTemporal

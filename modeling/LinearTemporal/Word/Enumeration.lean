import LinearTemporal.Word.Evaluation

/-!
# Enumerating lassos

All lassos over given propositions with a bounded stem and a bounded cycle, in
a fixed order: short stems first, then short cycles, then in the order of their
states from left to right.  Bounded equivalence is decided by running through
them.
-/

namespace LinearTemporal

/-!
The states are the sublists of the propositions, where those that differ in the first
element stand side by side.  Sequences of a given length are listed in the order of
their alphabet.
-/

def sublists : List String → List (List String)
  | [] => [[]]
  | x :: xs => (sublists xs).flatMap (fun ys => [ys, x :: ys])

def sequences {α : Type} (alphabet : List α) : Nat → List (List α)
  | 0 => [[]]
  | n + 1 => alphabet.flatMap (fun a => (sequences alphabet n).map (a :: ·))

namespace Lasso

def ofLengths (alphabet : List State) (stem cycle : Nat) : List Lasso :=
  (sequences alphabet stem).flatMap (fun front =>
    alphabet.flatMap (fun first =>
      (sequences alphabet cycle).map (fun rest =>
        ⟨front, first :: rest, List.cons_ne_nil _ _⟩)))

/-- All lassos whose states make only propositions of the given list true, with
a stem of at most `maxStem` states and a cycle of at most `maxCycle`, or of one
if that is less. -/
def bounded (propositions : List String) (maxStem maxCycle : Nat) : List Lasso :=
  let alphabet := (sublists propositions).map State.ofPropositions
  (List.range (maxStem + 1)).flatMap (fun stem =>
    (List.range (max maxCycle 1)).flatMap (fun cycle =>
      ofLengths alphabet stem cycle))

def findDisagreement (f g : Formula) (words : List Lasso) : Option Lasso :=
  words.find? (fun w => w.distinguishes f g)

end Lasso

end LinearTemporal

import LinearTemporal.Word.State

/-!
# Lassos

A lasso is an infinite word that is periodic from some position on: a finite
stem followed by a cycle that is repeated forever.  It has finitely many
distinct positions, those of the stem and of the first round of the cycle, and
every other position looks like one of them.
-/

namespace LinearTemporal

structure Lasso where
  stem : List State
  cycle : List State
  cycle_ne_nil : cycle ≠ []
  deriving DecidableEq

inductive LassoError where
  | emptyCycle
  deriving DecidableEq, Repr

namespace LassoError

def message : LassoError → String
  | emptyCycle => "Lasso cycle cannot be empty"

end LassoError

namespace Lasso

def ofLists (stem cycle : List State) : Except LassoError Lasso :=
  if h : cycle = [] then .error .emptyCycle else .ok ⟨stem, cycle, h⟩

def constant (s : State) : Lasso :=
  ⟨[], [s], List.cons_ne_nil _ _⟩

/-- The states at the distinct positions. -/
def states (w : Lasso) : List State :=
  w.stem ++ w.cycle

def length (w : Lasso) : Nat :=
  w.stem.length + w.cycle.length

theorem length_pos (w : Lasso) : 0 < w.length := by
  have h : 0 < w.cycle.length := List.length_pos_iff.mpr w.cycle_ne_nil
  simp only [length]
  omega

@[simp] theorem length_states (w : Lasso) : w.states.length = w.length := by
  simp [states, length]

/-- The distinct position after a distinct position. -/
def successor (w : Lasso) (i : Nat) : Nat :=
  if i + 1 < w.length then i + 1 else w.stem.length

/-- The distinct position that any position of the infinite word looks like. -/
def locate (w : Lasso) (i : Nat) : Nat :=
  if i < w.length then i
  else w.stem.length + (i - w.stem.length) % w.cycle.length

theorem locate_lt (w : Lasso) (i : Nat) : w.locate i < w.length := by
  have h : 0 < w.cycle.length := List.length_pos_iff.mpr w.cycle_ne_nil
  unfold locate
  split
  · assumption
  · have hmod := Nat.mod_lt (i - w.stem.length) h
    simp only [length]
    omega

def map (w : Lasso) (change : State → State) : Lasso :=
  ⟨w.stem.map change, w.cycle.map change, by simp [w.cycle_ne_nil]⟩

end Lasso

end LinearTemporal

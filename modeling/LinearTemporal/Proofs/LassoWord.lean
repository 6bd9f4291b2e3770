import LinearTemporal.Proofs.Satisfaction
import LinearTemporal.Word.Lasso

/-!
# The infinite word of a lasso

A lasso stands for its stem followed by its cycle over and over.  This module
defines that word from the two lists alone and relates the finitely many
distinct positions to it: every position looks from there on like the distinct
position that `locate` gives for it, and `successor` is one step ahead.
-/

namespace LinearTemporal
namespace Lasso

/-- The stem followed by the cycle, repeated forever. -/
def word (w : Lasso) (i : Nat) : State :=
  if h : i < w.stem.length then
    w.stem[i]
  else
    w.cycle.get ⟨(i - w.stem.length) % w.cycle.length,
      Nat.mod_lt _ (List.length_pos_iff.mpr w.cycle_ne_nil)⟩

variable (w : Lasso)

theorem cycle_length_pos : 0 < w.cycle.length :=
  List.length_pos_iff.mpr w.cycle_ne_nil

/-!
The word repeats after a round of the cycle, and so after any number of rounds.
-/

theorem word_add_cycle_length {i : Nat} (h : w.stem.length ≤ i) :
    w.word (i + w.cycle.length) = w.word i := by
  have hi : ¬ i < w.stem.length := by omega
  have hi' : ¬ i + w.cycle.length < w.stem.length := by omega
  have hmod : (i + w.cycle.length - w.stem.length) % w.cycle.length =
      (i - w.stem.length) % w.cycle.length := by
    rw [show i + w.cycle.length - w.stem.length = i - w.stem.length + w.cycle.length by omega]
    exact Nat.add_mod_right _ _
  simp only [word, hi, hi', ↓reduceDIte, hmod]

theorem sameFrom_add_cycle_length {i : Nat} (h : w.stem.length ≤ i) :
    Formula.SameFrom w.word w.word (i + w.cycle.length) i := by
  intro n
  rw [show i + w.cycle.length + n = i + n + w.cycle.length by omega]
  exact w.word_add_cycle_length (by omega)

theorem sameFrom_add_mul_cycle_length {i : Nat} (h : w.stem.length ≤ i) (rounds : Nat) :
    Formula.SameFrom w.word w.word (i + rounds * w.cycle.length) i := by
  induction rounds with
  | zero =>
      intro n
      simp
  | succ rounds ih =>
      intro n
      have hround := w.sameFrom_add_cycle_length (i := i + rounds * w.cycle.length) (by omega) n
      rw [show i + (rounds + 1) * w.cycle.length =
        i + rounds * w.cycle.length + w.cycle.length by rw [Nat.succ_mul]; omega]
      rw [hround]
      exact ih n

/-!
## Distinct positions

The states at the distinct positions are those of the word, and `successor` is one step
ahead in it.
-/

theorem sameFrom_locate (i : Nat) : Formula.SameFrom w.word w.word i (w.locate i) := by
  unfold locate
  split
  · intro n
    rfl
  · rename_i hi
    have hstem : w.stem.length ≤ i := by
      simp only [length] at hi
      omega
    have hsplit : w.stem.length + (i - w.stem.length) % w.cycle.length +
        (i - w.stem.length) / w.cycle.length * w.cycle.length = i := by
      have hdiv := Nat.mod_add_div' (i - w.stem.length) w.cycle.length
      omega
    have hsame := w.sameFrom_add_mul_cycle_length
      (i := w.stem.length + (i - w.stem.length) % w.cycle.length) (by omega)
      ((i - w.stem.length) / w.cycle.length)
    rw [hsplit] at hsame
    exact hsame

theorem successor_lt {i : Nat} : w.successor i < w.length := by
  unfold successor
  split
  · assumption
  · have hpos := w.cycle_length_pos
    simp only [length]
    omega

theorem sameFrom_successor {i : Nat} (h : i < w.length) :
    Formula.SameFrom w.word w.word (i + 1) (w.successor i) := by
  unfold successor
  split
  · intro n
    rfl
  · have hend : i + 1 = w.stem.length + w.cycle.length := by
      simp only [length] at *
      omega
    rw [hend]
    exact w.sameFrom_add_cycle_length (Nat.le_refl _)

theorem getElem_states {i : Nat} (h : i < w.states.length) : w.states[i] = w.word i := by
  simp only [states, word]
  rw [List.getElem_append]
  split
  · rfl
  · rename_i hi
    have hmod : (i - w.stem.length) % w.cycle.length = i - w.stem.length := by
      apply Nat.mod_eq_of_lt
      simp only [length_states, length] at h
      omega
    simp only [hmod, List.get_eq_getElem]

end Lasso
end LinearTemporal

import LinearTemporal.Proofs.LassoFixpoint

/-!
# Evaluation computes satisfaction

The values that `evaluate` gives to the distinct positions of a lasso are the
truth values of the formula on the lasso's infinite word.  The temporal operators
are all `until` or its negation, so one statement about fixpoints serves the four
of them that look further than one step.
-/

namespace LinearTemporal
namespace Lasso

open Formula

variable {w : Lasso}

/-!
## Fixpoints of until

A step that leaves the start where `q` holds, and otherwise passes on what it is given
where `p` holds, has `until` for its fixpoint.  For that the two properties may depend
on the rest of the word only.
-/

/-- A property of positions that only depends on the word from there on. -/
def IsLocal (w : Lasso) (p : Nat → Prop) : Prop :=
  ∀ ⦃i i'⦄, SameFrom w.word w.word i i' → (p i ↔ p i')

theorem isLocal_holds (f : Formula) : w.IsLocal (f.Holds w.word) :=
  fun _ _ h => holds_congr_of_sameFrom f h

theorem isLocal_true : w.IsLocal (fun _ => True) :=
  fun _ _ _ => Iff.rfl

theorem IsLocal.not {p : Nat → Prop} (hp : w.IsLocal p) : w.IsLocal (fun i => ¬ p i) :=
  fun _ _ h => not_congr (hp h)

theorem IsLocal.untilFrom {p q : Nat → Prop} (hp : w.IsLocal p) (hq : w.IsLocal q) :
    w.IsLocal (UntilFrom p q) :=
  fun _ _ h => untilFrom_congr (fun d => hp (h.add d)) (fun d => hq (h.add d))

theorem getD_fixpoint_ne_start_iff {start : Bool} {step : Nat → Bool → Bool}
    {p q : Nat → Prop} (hp : w.IsLocal p) (hq : w.IsLocal q) (hmono : IsMonotone step)
    (hstep : ∀ i, i < w.length → ∀ b, step i b ≠ start ↔ q i ∨ (p i ∧ b ≠ start))
    {i : Nat} (hi : i < w.length) :
    (w.fixpoint start step).getD i false ≠ start ↔ UntilFrom p q i := by
  classical
  have hnext : ∀ {i}, i < w.length → (UntilFrom p q (w.successor i) ↔ UntilFrom p q (i + 1)) :=
    fun hi => ((hp.untilFrom hq) (w.sameFrom_successor hi)).symm
  constructor
  · -- The truth values of `until` are closed under the step, so the fixpoint is below them.
    intro hmoved
    have hclosed : w.IsClosed start step
        (fun i => if UntilFrom p q i then !start else start) := by
      intro i hi hstepped
      rw [hstep i hi] at hstepped
      have huntil : UntilFrom p q i := by
        rw [untilFrom_iff]
        rcases hstepped with hnow | ⟨hpi, hlater⟩
        · exact Or.inl hnow
        · refine Or.inr ⟨hpi, ?_⟩
          rw [← hnext hi]
          by_contra hnot
          exact hlater (if_neg hnot)
      simp [huntil]
    have hbelow := fixpoint_below hmono hclosed hi hmoved
    by_contra hnot
    exact hbelow (if_neg hnot)
  · -- Along the steps up to `q` the fixpoint passes the value back.
    intro hexists
    rcases hexists with ⟨d, hqd, hpd⟩
    induction d generalizing i with
    | zero =>
        rw [getD_fixpoint hmono hi, hstep i hi]
        exact Or.inl hqd
    | succ d ih =>
        have hsame := w.sameFrom_successor hi
        rw [getD_fixpoint hmono hi, hstep i hi]
        refine Or.inr ⟨hpd 0 (Nat.succ_pos d), ih w.successor_lt ?_ ?_⟩
        · rw [← hq (hsame.add d), Nat.add_assoc, Nat.add_comm 1 d]
          exact hqd
        · intro e he
          rw [← hp (hsame.add e), Nat.add_assoc, Nat.add_comm 1 e]
          exact hpd (e + 1) (Nat.succ_lt_succ he)

/-!
## The steps of the temporal operators

Each of them is monotone in the value after the position.
-/

theorem isMonotone_always (now : List Bool) :
    IsMonotone (fun i next => now.getD i false && next) := by
  intro i h
  simp at h

theorem isMonotone_eventually (now : List Bool) :
    IsMonotone (fun i next => now.getD i false || next) := by
  intro i _
  simp

theorem isMonotone_untl (lefts rights : List Bool) :
    IsMonotone (fun i next => rights.getD i false || (lefts.getD i false && next)) := by
  intro i h
  simp only [Bool.and_false, Bool.or_false] at h
  simp only [h, Bool.true_or]

theorem isMonotone_release (lefts rights : List Bool) :
    IsMonotone (fun i next => rights.getD i false && (lefts.getD i false || next)) := by
  intro i h
  simp only [Bool.or_false, Bool.and_eq_true] at h
  simp only [h.1, Bool.or_true, Bool.and_true]

/-!
## Values at the distinct positions

By induction over the formula, where the fixpoints above serve the temporal operators.
-/

mutual

theorem length_evaluate : ∀ f : Formula, (w.evaluate f).length = w.length
  | const value => by simp [evaluate]
  | literal name negated => by simp [evaluate]
  | atom left op right => by simp [evaluate]
  | .not body => by simp [evaluate, length_evaluate body]
  | next body => by simp [evaluate]
  | always body => length_fixpoint (isMonotone_always _)
  | eventually body => length_fixpoint (isMonotone_eventually _)
  | untl left right => length_fixpoint (isMonotone_untl _ _)
  | release left right => length_fixpoint (isMonotone_release _ _)
  | junction k fs => length_evaluateAll k fs

theorem length_evaluateAll (k : Connective) :
    ∀ fs : List Formula, (w.evaluateAll k fs).length = w.length
  | [] => by simp [evaluateAll]
  | f :: fs => by simp [evaluateAll, length_evaluate f, length_evaluateAll k fs]

end

theorem getD_map_states (p : State → Bool) {i : Nat} (hi : i < w.length) :
    (w.states.map p).getD i false = p (w.word i) := by
  have hi' : i < w.states.length := by
    rw [length_states]
    exact hi
  rw [← w.getElem_states hi']
  simp [List.getElem?_eq_getElem hi']

theorem getD_evaluate_not (body : Formula) {i : Nat} (hi : i < w.length) :
    (w.evaluate (not body)).getD i false = !(w.evaluate body).getD i false := by
  have hi' : i < (w.evaluate body).length := by
    rw [length_evaluate]
    exact hi
  simp [evaluate, List.getElem?_eq_getElem hi']

theorem getD_evaluate_next (body : Formula) {i : Nat} (hi : i < w.length) :
    (w.evaluate (next body)).getD i false = (w.evaluate body).getD (w.successor i) false := by
  simp [evaluate, hi]

theorem getD_evaluateAll_cons (k : Connective) (f : Formula) (fs : List Formula) {i : Nat}
    (hi : i < w.length) :
    (w.evaluateAll k (f :: fs)).getD i false =
      k.apply ((w.evaluate f).getD i false) ((w.evaluateAll k fs).getD i false) := by
  have hf : i < (w.evaluate f).length := by
    rw [length_evaluate]
    exact hi
  have hfs : i < (w.evaluateAll k fs).length := by
    rw [length_evaluateAll]
    exact hi
  simp [evaluateAll, List.getElem?_zipWith, List.getElem?_eq_getElem hf,
    List.getElem?_eq_getElem hfs]

theorem getD_evaluateAll_and {fs : List Formula} {i : Nat} (hi : i < w.length) :
    (w.evaluateAll .and fs).getD i false = true ↔
      ∀ f ∈ fs, (w.evaluate f).getD i false = true := by
  induction fs with
  | nil => simp [evaluateAll, hi, Connective.neutral]
  | cons f fs ih =>
      rw [getD_evaluateAll_cons _ _ _ hi, Connective.apply, Bool.and_eq_true, ih,
        List.forall_mem_cons]

theorem getD_evaluateAll_or {fs : List Formula} {i : Nat} (hi : i < w.length) :
    (w.evaluateAll .or fs).getD i false = true ↔
      ∃ f ∈ fs, (w.evaluate f).getD i false = true := by
  induction fs with
  | nil => simp [evaluateAll, hi, Connective.neutral]
  | cons f fs ih =>
      rw [getD_evaluateAll_cons _ _ _ hi, Connective.apply, Bool.or_eq_true, ih,
        List.exists_mem_cons_iff]

theorem getD_evaluate (f : Formula) {i : Nat} (hi : i < w.length) :
    (w.evaluate f).getD i false = true ↔ f.Holds w.word i := by
  induction f using induction_on_children generalizing i with
  | step f ih =>
      cases f with
      | const value =>
          rw [holds_const]
          simp [evaluate, hi]
      | literal name negated =>
          rw [holds_literal, evaluate, getD_map_states _ hi, bne_iff_ne]
      | atom left op right =>
          rw [holds_atom, evaluate, getD_map_states _ hi]
      | not body =>
          rw [holds_not, getD_evaluate_not body hi, ← ih body (by simp [children]) hi]
          simp
      | next body =>
          rw [holds_next, getD_evaluate_next body hi, ih body (by simp [children]) w.successor_lt]
          exact (isLocal_holds body (w.sameFrom_successor hi)).symm
      | always body =>
          have hstep : ∀ i, i < w.length → ∀ b, ((w.evaluate body).getD i false && b) ≠ true ↔
              ¬ body.Holds w.word i ∨ (True ∧ b ≠ true) := by
            intro i hi b
            rw [← ih body (by simp [children]) hi]
            cases (w.evaluate body).getD i false <;> simp
          have hfix := getD_fixpoint_ne_start_iff isLocal_true (isLocal_holds body).not
            (isMonotone_always _) hstep hi
          rw [holds_always_iff_untilFrom, ← hfix]
          exact Classical.not_not.symm
      | eventually body =>
          have hstep : ∀ i, i < w.length → ∀ b, ((w.evaluate body).getD i false || b) ≠ false ↔
              body.Holds w.word i ∨ (True ∧ b ≠ false) := by
            intro i hi b
            rw [← ih body (by simp [children]) hi]
            cases (w.evaluate body).getD i false <;> simp
          have hfix := getD_fixpoint_ne_start_iff isLocal_true (isLocal_holds body)
            (isMonotone_eventually _) hstep hi
          rw [holds_eventually_iff_untilFrom, ← hfix]
          exact (Bool.not_eq_false _).symm.to_iff
      | untl left right =>
          have hstep : ∀ i, i < w.length → ∀ b,
              ((w.evaluate right).getD i false || ((w.evaluate left).getD i false && b)) ≠ false ↔
                right.Holds w.word i ∨ (left.Holds w.word i ∧ b ≠ false) := by
            intro i hi b
            rw [← ih left (by simp [children]) hi, ← ih right (by simp [children]) hi]
            cases (w.evaluate right).getD i false <;>
              cases (w.evaluate left).getD i false <;> simp
          have hfix := getD_fixpoint_ne_start_iff (isLocal_holds left) (isLocal_holds right)
            (isMonotone_untl _ _) hstep hi
          rw [holds_untl_iff_untilFrom, ← hfix]
          exact (Bool.not_eq_false _).symm.to_iff
      | release left right =>
          have hstep : ∀ i, i < w.length → ∀ b,
              ((w.evaluate right).getD i false && ((w.evaluate left).getD i false || b)) ≠ true ↔
                ¬ right.Holds w.word i ∨ (¬ left.Holds w.word i ∧ b ≠ true) := by
            intro i hi b
            rw [← ih left (by simp [children]) hi, ← ih right (by simp [children]) hi]
            cases (w.evaluate right).getD i false <;>
              cases (w.evaluate left).getD i false <;> simp
          have hfix := getD_fixpoint_ne_start_iff (isLocal_holds left).not
            (isLocal_holds right).not (isMonotone_release _ _) hstep hi
          rw [holds_release_iff_untilFrom, ← hfix]
          exact Classical.not_not.symm
      | junction k fs =>
          cases k with
          | and =>
              rw [holds_and, evaluate, getD_evaluateAll_and hi]
              exact forall₂_congr fun f hf => ih f hf hi
          | or =>
              rw [holds_or, evaluate, getD_evaluateAll_or hi]
              exact exists_congr fun f => and_congr_right fun hf => ih f hf hi

/-- Evaluation computes, at every position of the infinite word, whether the formula
holds there. -/
theorem holdsAt_iff_holds_word (w : Lasso) (f : Formula) (i : Nat) :
    w.holdsAt f i = true ↔ f.Holds w.word i := by
  unfold holdsAt
  rw [getD_evaluate f (w.locate_lt i)]
  exact (holds_congr_of_sameFrom f (w.sameFrom_locate i)).symm

end Lasso
end LinearTemporal

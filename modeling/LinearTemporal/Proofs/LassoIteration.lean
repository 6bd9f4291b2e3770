import LinearTemporal.Proofs.LassoFixpoint

/-!
# Sweeping without a limit

The fixpoint of a step is what a loop ends with that writes into the values it
reads, and goes on for as long as a sweep changes something.  Done in this way a
sweep meets values of this round and of the one before: at the end of the cycle
it reads the start of the cycle, which it visits only later.  The loop ends for
every monotone step, and its end is the extremal solution of the step.
-/

namespace LinearTemporal
namespace Lasso

/-!
## A sweep in place

A visit writes the value of the step at one position and notes if that changes
something.  After a position that is visited comes a value of this round, unless the
cycle ends there.  So sweeping in place gives the values of a sweep that keeps the old
ones apart.
-/

def visit (w : Lasso) (step : Nat → Bool → Bool) (i : Nat) (state : List Bool × Bool) :
    List Bool × Bool :=
  let value := step i (state.1.getD (w.successor i) false)
  if value = state.1.getD i false then state else (state.1.set i value, true)

def sweepInPlace (w : Lasso) (step : Nat → Bool → Bool) (values : List Bool) :
    List Bool × Bool :=
  (List.range w.length).reverse.foldl (fun state i => w.visit step i state) (values, false)

def sweepFrom (w : Lasso) (step : Nat → Bool → Bool) (values : List Bool) (first count : Nat) :
    List Bool :=
  (List.range' first count).foldr
    (fun i later => step i (later.headD (values.getD w.stem.length false)) :: later) []

variable {w : Lasso} {step : Nat → Bool → Bool} {values : List Bool}

theorem sweepFrom_succ (first count : Nat) :
    w.sweepFrom step values first (count + 1) =
      step first ((w.sweepFrom step values (first + 1) count).headD
        (values.getD w.stem.length false)) :: w.sweepFrom step values (first + 1) count := by
  unfold sweepFrom
  rw [List.range'_succ, List.foldr_cons]

theorem sweep_eq_sweepFrom : w.sweep step values = w.sweepFrom step values 0 w.length := by
  rw [sweep, sweepFrom, List.range_eq_range']

theorem length_sweepFrom (first count : Nat) :
    (w.sweepFrom step values first count).length = count := by
  induction count generalizing first with
  | zero => rfl
  | succ count ih => rw [sweepFrom_succ, List.length_cons, ih]

theorem visit_append {before after : List Bool} {old changed : Bool} {i : Nat}
    (hi : before.length = i) :
    w.visit step i (before ++ old :: after, changed) =
      let value := step i ((before ++ old :: after).getD (w.successor i) false)
      (before ++ value :: after, decide (value ≠ old) || changed) := by
  have hold : (before ++ old :: after).getD i false = old := by simp [← hi]
  have hset (value : Bool) : (before ++ old :: after).set i value = before ++ value :: after := by
    simp [← hi]
  unfold visit
  dsimp only
  rw [hold]
  split
  · rename_i hsame
    rw [hsame, decide_eq_false (not_not_intro rfl), Bool.false_or]
  · rename_i hnew
    rw [hset, decide_eq_true hnew, Bool.true_or]

theorem getD_successor (later : List Bool) {i : Nat} (hi : i + 1 + later.length = w.length)
    (hvalues : values.length = w.length) :
    (values.take (i + 1) ++ later).getD (w.successor i) false =
      later.headD (values.getD w.stem.length false) := by
  have hpos := w.cycle_length_pos
  cases later with
  | nil =>
      rw [List.length_nil, Nat.add_zero] at hi
      have hstem : w.stem.length < i + 1 := by
        unfold length at hi
        omega
      rw [successor, if_neg (Nat.not_lt_of_le hi.ge), List.append_nil, List.headD_nil]
      simp [List.getD_eq_getElem?_getD, hstem]
  | cons next later =>
      rw [List.length_cons] at hi
      have htake : (values.take (i + 1)).length = i + 1 := List.length_take_of_le (by omega)
      rw [successor, if_pos (by omega), List.headD_cons]
      simp [List.getD_eq_getElem?_getD, htake]

theorem foldr_visit {first count : Nat} (hcount : first + count = w.length)
    (hvalues : values.length = w.length) :
    (List.range' first count).foldr (w.visit step) (values, false) =
      (values.take first ++ w.sweepFrom step values first count,
        decide (w.sweepFrom step values first count ≠ values.drop first)) := by
  induction count generalizing first with
  | zero =>
      have hall : values.length ≤ first := by omega
      simp [sweepFrom, List.take_of_length_le hall, List.drop_of_length_le hall]
  | succ count ih =>
      have hlt : first < values.length := by omega
      have hsplit : values.take (first + 1) ++ w.sweepFrom step values (first + 1) count =
          values.take first ++ values[first] :: w.sweepFrom step values (first + 1) count := by
        rw [List.take_add_one, List.getElem?_eq_getElem hlt, List.append_assoc]
        rfl
      have hnext := getD_successor (w.sweepFrom step values (first + 1) count) (i := first)
        (by rw [length_sweepFrom]; omega) hvalues
      rw [List.range'_succ, List.foldr_cons, ih (by omega), hsplit,
        visit_append (List.length_take_of_le hlt.le), ← hsplit, hnext, sweepFrom_succ,
        List.drop_eq_getElem_cons hlt]
      simp only [ne_eq, List.cons.injEq, not_and_or, Bool.decide_or]

theorem sweepInPlace_eq (hvalues : values.length = w.length) :
    w.sweepInPlace step values =
      (w.sweep step values, decide (w.sweep step values ≠ values)) := by
  rw [sweepInPlace, List.foldl_reverse, List.range_eq_range', sweep_eq_sweepFrom]
  exact foldr_visit (Nat.zero_add _) hvalues

/-!
## The loop

The loop has at most one end, and if a limited number of rounds arrives at stable
values, it ends with them.
-/

/-- Sweeping in place until a sweep changes nothing ends with a list of values. -/
inductive EndsWith (w : Lasso) (step : Nat → Bool → Bool) : List Bool → List Bool → Prop where
  | stable {values swept : List Bool} :
      w.sweepInPlace step values = (swept, false) → EndsWith w step values swept
  | changed {values swept result : List Bool} :
      w.sweepInPlace step values = (swept, true) → EndsWith w step swept result →
      EndsWith w step values result

theorem EndsWith.unique {result result' : List Bool} (h : w.EndsWith step values result)
    (h' : w.EndsWith step values result') : result = result' := by
  induction h with
  | stable hswept =>
      cases h' with
      | stable hswept' =>
          rw [hswept] at hswept'
          cases hswept'
          rfl
      | changed hswept' _ =>
          rw [hswept] at hswept'
          cases hswept'
  | changed hswept _ ih =>
      cases h' with
      | stable hswept' =>
          rw [hswept] at hswept'
          cases hswept'
      | changed hswept' hrest =>
          rw [hswept] at hswept'
          cases hswept'
          exact ih hrest

theorem EndsWith.of_stable (hvalues : values.length = w.length)
    (hsame : w.sweep step values = values) : w.EndsWith step values values := by
  have hswept : w.sweepInPlace step values = _ := sweepInPlace_eq hvalues
  rw [hsame, decide_eq_false (not_not_intro rfl)] at hswept
  exact EndsWith.stable hswept

theorem EndsWith.of_changed {result : List Bool} (hvalues : values.length = w.length)
    (hnew : w.sweep step values ≠ values) (h : w.EndsWith step (w.sweep step values) result) :
    w.EndsWith step values result := by
  have hswept : w.sweepInPlace step values = _ := sweepInPlace_eq hvalues
  rw [decide_eq_true hnew] at hswept
  exact EndsWith.changed hswept h

theorem endsWith_sweepUntilStable {rounds : Nat} (hvalues : values.length = w.length)
    (hstable : w.sweep step (w.sweepUntilStable step rounds values) =
      w.sweepUntilStable step rounds values) :
    w.EndsWith step values (w.sweepUntilStable step rounds values) := by
  induction rounds generalizing values with
  | zero => exact EndsWith.of_stable hvalues hstable
  | succ rounds ih =>
      unfold sweepUntilStable at hstable ⊢
      dsimp only at hstable ⊢
      split
      · rename_i hsame
        exact EndsWith.of_stable hvalues hsame
      · rename_i hnew
        rw [if_neg hnew] at hstable
        exact EndsWith.of_changed hvalues hnew (ih (length_sweep values) hstable)

/-!
## Solutions of a step

A value that the fixpoint has moved away from the start is moved in every solution.
-/

/-- At every distinct position the value is the one that the step gives. -/
structure IsSolution (w : Lasso) (step : Nat → Bool → Bool) (values : List Bool) : Prop where
  length_eq : values.length = w.length
  getD_eq : ∀ i, i < w.length →
    values.getD i false = step i (values.getD (w.successor i) false)

theorem isSolution_fixpoint (w : Lasso) (start : Bool) (hstep : IsMonotone step) :
    w.IsSolution step (w.fixpoint start step) where
  length_eq := length_fixpoint hstep
  getD_eq := fun _ hi => getD_fixpoint hstep hi

theorem IsSolution.below {start : Bool} (hstep : IsMonotone step) (h : w.IsSolution step values)
    {i : Nat} (hi : i < w.length) :
    Below start ((w.fixpoint start step).getD i false) (values.getD i false) := by
  have hclosed : w.IsClosed start step (fun i => values.getD i false) := by
    intro j hj hmoved hstart
    exact hmoved ((h.getD_eq j hj).symm.trans hstart)
  exact fixpoint_below hstep hclosed hi

/-- For a monotone step the loop ends, and only with the fixpoint.  That solves the step, and
among all solutions it is the least if the values were false at the start, and the greatest if
they were true. -/
theorem fixpoint_extremal (w : Lasso) (start : Bool) (hstep : IsMonotone step) :
    (∀ result, w.EndsWith step (List.replicate w.length start) result ↔
      result = w.fixpoint start step) ∧
    w.IsSolution step (w.fixpoint start step) ∧
    (start = false → ∀ values, w.IsSolution step values → ∀ i, i < w.length →
      (w.fixpoint start step).getD i false = true → values.getD i false = true) ∧
    (start = true → ∀ values, w.IsSolution step values → ∀ i, i < w.length →
      values.getD i false = true → (w.fixpoint start step).getD i false = true) := by
  have hend : w.EndsWith step (List.replicate w.length start) (w.fixpoint start step) :=
    endsWith_sweepUntilStable List.length_replicate (fixpoint_spec w start hstep).2.1
  refine ⟨fun result => ⟨fun h => h.unique hend, fun h => h ▸ hend⟩,
    isSolution_fixpoint w start hstep, ?_, ?_⟩
  · rintro rfl values hvalues i hi hfixpoint
    have hmoved : (w.fixpoint false step).getD i false ≠ false := by
      rw [hfixpoint]
      decide
    exact Bool.eq_true_of_not_eq_false (hvalues.below hstep hi hmoved)
  · rintro rfl values hvalues i hi hvalue
    by_contra hfixpoint
    exact hvalues.below hstep hi hfixpoint hvalue

/-- Where `p` holds at the first of the two positions of the cycle, the values of `F p` take two
rounds that change something: the last position looks at the first one round the end of the
cycle. -/
theorem fixpoint_extremal_eventually :
    let nothing := State.ofPropositions []
    let w : Lasso := ⟨[nothing], [State.ofPropositions ["p"], nothing], List.cons_ne_nil _ _⟩
    let step := fun i next => [false, true, false].getD i false || next
    IsMonotone step ∧ w.EndsWith step [false, false, false] [true, true, true] ∧
      ∀ values, w.IsSolution step values → ∀ i, i < 3 → values.getD i false = true := by
  intro nothing w step
  have hstep : IsMonotone step := fun i _ => Bool.or_true _
  have hfixpoint : w.fixpoint false step = [true, true, true] := by decide
  rcases fixpoint_extremal w false hstep with ⟨hend, _, hleast, _⟩
  have hmoved : ∀ i, i < 3 → (w.fixpoint false step).getD i false = true := by
    rw [hfixpoint]
    decide
  exact ⟨hstep, (hend _).mpr hfixpoint.symm, fun values hvalues i hi =>
    hleast rfl values hvalues i hi (hmoved i hi)⟩

end Lasso
end LinearTemporal

import Mathlib.Data.Finset.Card
import Mathlib.Data.Finset.Range
import LinearTemporal.Proofs.LassoWord
import LinearTemporal.Word.Evaluation

/-!
# Fixpoints on a lasso

Sweeping over the positions of a lasso with a monotone step stops at a fixpoint,
and at the extremal one: the least when the sweeps start from `false`, the
greatest when they start from `true`.  Both cases are one here, since the values
are compared by how far they have moved away from the start.
-/

namespace LinearTemporal
namespace Lasso

/-!
## Moving away from the start

A value is below another if the other has left the start wherever the one has: `a ≤ b`
for a start of `false`, and `b ≤ a` for a start of `true`.  How many positions have left
the start is what a sweep can only raise.
-/

/-- `b` has left the start if `a` has: `a ≤ b` for a start of `false`, `b ≤ a` for
a start of `true`. -/
def Below (start a b : Bool) : Prop :=
  a ≠ start → b ≠ start

def IsMonotone (step : Nat → Bool → Bool) : Prop :=
  ∀ i, step i false = true → step i true = true

variable {start : Bool} {step : Nat → Bool → Bool}

theorem IsMonotone.below (hstep : IsMonotone step) (i : Nat) {a b : Bool}
    (h : Below start a b) : Below start (step i a) (step i b) := by
  have hi := hstep i
  cases hfalse : step i false <;> cases htrue : step i true <;>
    cases start <;> cases a <;> cases b <;> simp_all [Below]

variable (w : Lasso)

def BelowAt (start : Bool) (xs ys : List Bool) : Prop :=
  ∀ i, i < w.length → Below start (xs.getD i false) (ys.getD i false)

def moved (start : Bool) (values : List Bool) : Nat :=
  ((Finset.range w.length).filter (fun i => values.getD i false ≠ start)).card

theorem moved_le (start : Bool) (values : List Bool) : w.moved start values ≤ w.length := by
  have hle := Finset.card_filter_le (Finset.range w.length)
    (fun i => values.getD i false ≠ start)
  rw [Finset.card_range] at hle
  exact hle

variable {w}

theorem moved_lt {xs ys : List Bool} (hle : w.BelowAt start xs ys)
    {i : Nat} (hi : i < w.length) (hne : xs.getD i false ≠ ys.getD i false) :
    w.moved start xs < w.moved start ys := by
  have hstay : xs.getD i false = start := by
    by_contra hx
    have hy := hle i hi hx
    cases start <;> simp_all
  apply Finset.card_lt_card
  rw [Finset.ssubset_iff_of_subset]
  · refine ⟨i, ?_, ?_⟩
    · rw [Finset.mem_filter, Finset.mem_range]
      exact ⟨hi, fun hy => hne (by rw [hstay, hy])⟩
    · rw [Finset.mem_filter]
      exact fun h => h.2 hstay
  · intro j hj
    rw [Finset.mem_filter, Finset.mem_range] at hj ⊢
    exact ⟨hj.1, hle j hj.1 hj.2⟩

theorem exists_getD_ne {xs ys : List Bool} (hx : xs.length = w.length)
    (hy : ys.length = w.length) (hne : xs ≠ ys) :
    ∃ i, i < w.length ∧ xs.getD i false ≠ ys.getD i false := by
  by_contra hall
  apply hne
  apply List.ext_getElem (by rw [hx, hy])
  intro i hi hi'
  by_contra hdiff
  apply hall
  refine ⟨i, by omega, ?_⟩
  simp only [List.getD_eq_getElem?_getD, List.getElem?_eq_getElem hi,
    List.getElem?_eq_getElem hi', Option.getD_some]
  exact hdiff

/-!
## One sweep

The positions are gone through from the last to the first, so the induction runs in this
direction.  A sweep stays below any values that are above their own step, if the value
it starts from does.
-/

theorem getD_sweep_from (step : Nat → Bool → Bool) (wrapped : Bool) {m k j : Nat}
    (hj : j < m) :
    let swept := fun k m => (List.range' k m).foldr
      (fun i later => step i (later.headD wrapped) :: later) []
    (swept k m).getD j false =
      step (k + j) (if j + 1 < m then (swept k m).getD (j + 1) false else wrapped) := by
  intro swept
  induction m generalizing k j with
  | zero => omega
  | succ m ih =>
      have hcons : swept k (m + 1) =
          step k ((swept (k + 1) m).headD wrapped) :: swept (k + 1) m := by
        simp only [swept, List.range'_succ, List.foldr_cons]
      rw [hcons]
      cases j with
      | zero =>
          cases m with
          | zero => simp [swept]
          | succ m => simp [swept, List.range'_succ]
      | succ j =>
          have hrest := ih (k := k + 1) (j := j) (by omega)
          simp only [List.getD_cons_succ, Nat.add_lt_add_iff_right]
          rw [hrest, Nat.add_right_comm, Nat.add_assoc k j 1]

@[simp] theorem length_sweep (values : List Bool) : (w.sweep step values).length = w.length := by
  have hlen : ∀ is : List Nat, (is.foldr (fun i later =>
      step i (later.headD (values.getD w.stem.length false)) :: later) []).length =
        is.length := by
    intro is
    induction is with
    | nil => rfl
    | cons i is ih => rw [List.foldr_cons, List.length_cons, ih, List.length_cons]
  unfold sweep
  rw [hlen, List.length_range]

theorem getD_sweep (step : Nat → Bool → Bool) (values : List Bool) {i : Nat}
    (hi : i < w.length) :
    (w.sweep step values).getD i false =
      step i (if i + 1 < w.length then (w.sweep step values).getD (i + 1) false
        else values.getD w.stem.length false) := by
  have h := getD_sweep_from step (values.getD w.stem.length false) (k := 0) hi
  simp only [← List.range_eq_range', Nat.zero_add] at h
  exact h

theorem position_induction {motive : Nat → Prop}
    (last : ∀ i, i + 1 = w.length → motive i)
    (earlier : ∀ i, i + 1 < w.length → motive (i + 1) → motive i) {i : Nat}
    (hi : i < w.length) : motive i := by
  induction hd : w.length - (i + 1) generalizing i with
  | zero => exact last i (by omega)
  | succ d ih => exact earlier i (by omega) (ih (by omega) (by omega))

theorem sweep_below (hstep : IsMonotone step) {values : List Bool} (bound : Nat → Bool)
    {wrapped : Bool} (hwrapped : Below start (values.getD w.stem.length false) wrapped)
    (hbound : ∀ i, i < w.length →
      Below start (step i (if i + 1 < w.length then bound (i + 1) else wrapped)) (bound i))
    {i : Nat} (hi : i < w.length) :
    Below start ((w.sweep step values).getD i false) (bound i) := by
  refine position_induction
    (motive := fun i => Below start ((w.sweep step values).getD i false) (bound i)) ?_ ?_ hi
  · intro i hlast hmoved
    have hend : ¬ i + 1 < w.length := by omega
    have hi : i < w.length := by omega
    apply hbound i hi
    rw [getD_sweep step values hi, if_neg hend] at hmoved
    rw [if_neg hend]
    exact hstep.below i hwrapped hmoved
  · intro i hlt ih hmoved
    have hi : i < w.length := by omega
    apply hbound i hi
    rw [getD_sweep step values hi, if_pos hlt] at hmoved
    rw [if_pos hlt]
    exact hstep.below i ih hmoved

theorem sweep_mono (hstep : IsMonotone step) {xs ys : List Bool} (h : w.BelowAt start xs ys) :
    w.BelowAt start (w.sweep step xs) (w.sweep step ys) := by
  have hstem : w.stem.length < w.length := by
    have hpos := w.cycle_length_pos
    simp only [length]
    omega
  intro i hi
  refine sweep_below hstep (fun i => (w.sweep step ys).getD i false)
    (h w.stem.length hstem) ?_ hi
  intro j hj hmoved
  show (w.sweep step ys).getD j false ≠ start
  rw [getD_sweep step ys hj]
  exact hmoved

/-!
## Sweeping until nothing changes

Values that a step does not move further away are closed under it.  Sweeps never leave
what is closed, and a sweep that changes something moves a position for good.
-/

variable (w) in
def IsClosed (start : Bool) (step : Nat → Bool → Bool) (bound : Nat → Bool) : Prop :=
  ∀ i, i < w.length → Below start (step i (bound (w.successor i))) (bound i)

theorem sweep_below_of_isClosed (hstep : IsMonotone step) {values : List Bool}
    {bound : Nat → Bool} (hclosed : w.IsClosed start step bound)
    (h : ∀ i, i < w.length → Below start (values.getD i false) (bound i)) :
    ∀ i, i < w.length → Below start ((w.sweep step values).getD i false) (bound i) := by
  have hstem : w.stem.length < w.length := by
    have hpos := w.cycle_length_pos
    simp only [length]
    omega
  intro i hi
  refine sweep_below hstep bound (h w.stem.length hstem) ?_ hi
  intro j hj
  have hnext : (if j + 1 < w.length then bound (j + 1) else bound w.stem.length) =
      bound (w.successor j) := by
    unfold successor
    split <;> rfl
  rw [hnext]
  exact hclosed j hj

/-- Every sweep that changes something moves a position for good, so enough rounds
end in a stable list, and none of them leaves what is closed under the step. -/
theorem sweepUntilStable_spec (hstep : IsMonotone step) (rounds : Nat) {values : List Bool}
    (hlength : values.length = w.length)
    (hgrows : w.BelowAt start values (w.sweep step values))
    (hrounds : w.length < rounds + w.moved start values) :
    (w.sweepUntilStable step rounds values).length = w.length ∧
    w.sweep step (w.sweepUntilStable step rounds values) =
      w.sweepUntilStable step rounds values ∧
    ∀ bound, w.IsClosed start step bound →
      (∀ i, i < w.length → Below start (values.getD i false) (bound i)) →
      ∀ i, i < w.length →
        Below start ((w.sweepUntilStable step rounds values).getD i false) (bound i) := by
  induction rounds generalizing values with
  | zero =>
      have hle := w.moved_le start values
      omega
  | succ rounds ih =>
      by_cases hstable : w.sweep step values = values
      · have hstop : w.sweepUntilStable step (rounds + 1) values = values := by
          simp [sweepUntilStable, hstable]
        rw [hstop]
        exact ⟨hlength, hstable, fun bound _ h => h⟩
      · have hstop : w.sweepUntilStable step (rounds + 1) values =
            w.sweepUntilStable step rounds (w.sweep step values) := by
          simp [sweepUntilStable, hstable]
        rw [hstop]
        rcases exists_getD_ne hlength (length_sweep values) (Ne.symm hstable) with ⟨i, hi, hne⟩
        have hmoved := moved_lt hgrows hi hne
        rcases ih (length_sweep values) (sweep_mono hstep hgrows) (by omega) with
          ⟨hlen, hfix, hbelow⟩
        refine ⟨hlen, hfix, ?_⟩
        intro bound hclosed h
        exact hbelow bound hclosed (sweep_below_of_isClosed hstep hclosed h)

theorem fixpoint_spec (w : Lasso) (start : Bool) (hstep : IsMonotone step) :
    (w.fixpoint start step).length = w.length ∧
    w.sweep step (w.fixpoint start step) = w.fixpoint start step ∧
    ∀ bound, w.IsClosed start step bound → ∀ i, i < w.length →
      Below start ((w.fixpoint start step).getD i false) (bound i) := by
  have hstart : ∀ (bound : Nat → Bool) i, i < w.length →
      Below start ((List.replicate w.length start).getD i false) (bound i) := by
    intro bound i hi hmoved
    simp [hi] at hmoved
  rcases sweepUntilStable_spec hstep (w.length + 1) List.length_replicate
    (hstart _) (by omega) with ⟨hlength, hfix, hbelow⟩
  exact ⟨hlength, hfix, fun bound hclosed => hbelow bound hclosed (hstart bound)⟩

theorem length_fixpoint (hstep : IsMonotone step) :
    (w.fixpoint start step).length = w.length :=
  (fixpoint_spec w start hstep).1

theorem getD_fixpoint (hstep : IsMonotone step) {i : Nat} (hi : i < w.length) :
    (w.fixpoint start step).getD i false =
      step i ((w.fixpoint start step).getD (w.successor i) false) := by
  have hfix := (fixpoint_spec w start hstep).2.1
  have hi' := getD_sweep step (w.fixpoint start step) hi
  rw [hfix] at hi'
  rw [hi']
  unfold successor
  split <;> simp_all

theorem fixpoint_below (hstep : IsMonotone step) {bound : Nat → Bool}
    (hclosed : w.IsClosed start step bound) {i : Nat} (hi : i < w.length) :
    Below start ((w.fixpoint start step).getD i false) (bound i) :=
  (fixpoint_spec w start hstep).2.2 bound hclosed i hi

end Lasso
end LinearTemporal

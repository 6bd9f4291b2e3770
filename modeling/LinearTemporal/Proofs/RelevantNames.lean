import Mathlib.Data.List.Forall2
import LinearTemporal.Proofs.Parts
import LinearTemporal.Word.Evaluation

/-!
# Only the names of a formula matter

Two lassos of the same shape whose states agree on the propositions and the variables of a
formula give it the same values at all positions.  The temporal operators see nothing of a
lasso but its two lengths and the values of their operands, so the names are looked up at the
leaves only, and there they are names of the whole formula.
-/

namespace LinearTemporal

/-!
## Agreement

States agree on a formula if they say the same about all of its names, and then they
agree on its parts as well.
-/

structure State.AgreeOn (f : Formula) (s t : State) : Prop where
  holds : ∀ name ∈ f.propositions.toList, s.holds name = t.holds name
  value : ∀ name ∈ f.integerVariables.toList, s.value name = t.value name

/-- The two lassos have the same shape, and states in the same place agree. -/
structure Lasso.AgreeOn (f : Formula) (w w' : Lasso) : Prop where
  stem : List.Forall₂ (State.AgreeOn f) w.stem w'.stem
  cycle : List.Forall₂ (State.AgreeOn f) w.cycle w'.cycle

theorem State.AgreeOn.part {f g : Formula} {s t : State} (h : s.AgreeOn f t)
    (hg : g ∈ f.children) : s.AgreeOn g t where
  holds _ hname := h.holds _ (Formula.mem_propositions_of_mem_children hg hname)
  value _ hname := h.value _ (Formula.mem_integerVariables_of_mem_children hg hname)

/-!
## What leaves look up

Terms have the same value, and literals and atoms the same truth value, in states that
agree.
-/

theorem Term.evaluate_congr {t : Term} {valuation valuation' : String → Int64}
    (h : ∀ name ∈ t.variableNames, valuation name = valuation' name) :
    t.evaluate valuation = t.evaluate valuation' := by
  induction t with
  | var name => exact h name (List.mem_singleton_self name)
  | int value => rfl
  | neg body ih => rw [evaluate, evaluate, ih h]
  | binary op left right ihleft ihright =>
      rw [evaluate, evaluate, ihleft fun name hname => h name (List.mem_append_left _ hname),
        ihright fun name hname => h name (List.mem_append_right _ hname)]

namespace State.AgreeOn

variable {s t : State}

theorem holds_literal {name : String} {negated : Bool}
    (h : s.AgreeOn (.literal name negated) t) : s.holds name = t.holds name :=
  h.holds name (Formula.mem_propositions.mpr (List.mem_singleton_self name))

theorem holds_atom {left right : Term} {op : Comparison} (h : s.AgreeOn (.atom left op right) t) :
    op.holds (left.evaluate s.value) (right.evaluate s.value) =
      op.holds (left.evaluate t.value) (right.evaluate t.value) := by
  have hname : ∀ name ∈ left.variableNames ++ right.variableNames, s.value name = t.value name :=
    fun name hname => h.value name (Formula.mem_integerVariables.mpr hname)
  rw [Term.evaluate_congr fun name hleft => hname name (List.mem_append_left _ hleft),
    Term.evaluate_congr fun name hright => hname name (List.mem_append_right _ hright)]

end State.AgreeOn

namespace Lasso

/-!
## Fixpoints depend on the shape alone

Where the stems are of one length and the cycles too, the positions correspond, and a
step that is the same at corresponding positions has the same fixpoint.
-/

variable {w w' : Lasso}

section

variable (hstem : w.stem.length = w'.stem.length) (hcycle : w.cycle.length = w'.cycle.length)

include hstem hcycle

theorem length_congr : w.length = w'.length := by
  rw [length, length, hstem, hcycle]

theorem successor_congr : w.successor = w'.successor := by
  funext i
  rw [successor, successor, length_congr hstem hcycle, hstem]

theorem sweep_congr (step : Nat → Bool → Bool) : w.sweep step = w'.sweep step := by
  funext values
  rw [sweep, sweep, length_congr hstem hcycle, hstem]

theorem fixpoint_congr (start : Bool) (step : Nat → Bool → Bool) :
    w.fixpoint start step = w'.fixpoint start step := by
  have hrounds : ∀ rounds values, w.sweepUntilStable step rounds values =
      w'.sweepUntilStable step rounds values := by
    intro rounds
    induction rounds with
    | zero => exact fun _ => rfl
    | succ rounds ih =>
        intro values
        rw [sweepUntilStable, sweepUntilStable, sweep_congr hstem hcycle]
        simp only [ih]
  rw [fixpoint, fixpoint, length_congr hstem hcycle, hrounds]

end

/-!
## Evaluation

By induction over the formula; agreement passes to the parts.
-/

namespace AgreeOn

variable {f : Formula}

theorem part {g : Formula} (h : w.AgreeOn f w') (hg : g ∈ f.children) : w.AgreeOn g w' where
  stem := h.stem.imp fun _ _ hstates => hstates.part hg
  cycle := h.cycle.imp fun _ _ hstates => hstates.part hg

theorem map_states {α : Type} {observe : State → α} (h : w.AgreeOn f w')
    (hobserve : ∀ s t, s.AgreeOn f t → observe s = observe t) :
    w.states.map observe = w'.states.map observe := by
  have hstates : List.Forall₂ (State.AgreeOn f) w.states w'.states :=
    List.rel_append h.stem h.cycle
  have hmapped : List.Forall₂ (· = ·) (w.states.map observe) (w'.states.map observe) :=
    List.forall₂_map_left_iff.mpr (List.forall₂_map_right_iff.mpr (hstates.imp hobserve))
  rwa [List.forall₂_eq_eq_eq] at hmapped

end AgreeOn

theorem evaluateAll_congr {k : Connective} {fs : List Formula} (hlength : w.length = w'.length)
    (h : ∀ f ∈ fs, w.evaluate f = w'.evaluate f) : w.evaluateAll k fs = w'.evaluateAll k fs := by
  induction fs with
  | nil => rw [evaluateAll, evaluateAll, hlength]
  | cons f fs ih =>
      rw [List.forall_mem_cons] at h
      rw [evaluateAll, evaluateAll, h.1, ih h.2]

/-- A formula has the same values on two lassos of the same shape whose states agree on its
names. -/
theorem evaluate_eq_of_agreeOn {f : Formula} (h : w.AgreeOn f w') :
    w.evaluate f = w'.evaluate f := by
  have hstem : w.stem.length = w'.stem.length := h.stem.length_eq
  have hcycle : w.cycle.length = w'.cycle.length := h.cycle.length_eq
  have hlength : w.length = w'.length := length_congr hstem hcycle
  induction f using Formula.induction_on_children with
  | step f ih =>
      have hpart : ∀ g ∈ f.children, w.evaluate g = w'.evaluate g :=
        fun g hg => ih g hg (h.part hg)
      cases f with
      | const value => rw [evaluate, evaluate, hlength]
      | literal name negated =>
          rw [evaluate, evaluate]
          exact h.map_states fun s t hst => by rw [hst.holds_literal]
      | atom left op right =>
          rw [evaluate, evaluate]
          exact h.map_states fun s t hst => hst.holds_atom
      | not body => rw [evaluate, evaluate, hpart body (by simp [Formula.children])]
      | next body =>
          rw [evaluate, evaluate, hpart body (by simp [Formula.children]), hlength,
            successor_congr hstem hcycle]
      | always body | eventually body =>
          rw [evaluate, evaluate, hpart body (by simp [Formula.children]),
            fixpoint_congr hstem hcycle]
      | untl left right | release left right =>
          rw [evaluate, evaluate, hpart left (by simp [Formula.children]),
            hpart right (by simp [Formula.children]), fixpoint_congr hstem hcycle]
      | junction k fs =>
          rw [evaluate, evaluate]
          exact evaluateAll_congr hlength hpart

theorem evaluate_eq_of_agreeOn_until :
    let f : Formula := .untl (.literal "p" false) (.always (.atom (.var "x") .lt (.int 3)))
    let bare : State := .ofPropositions ["p"]
    let w : Lasso := ⟨[bare.assign "x" 5], [bare, .ofPropositions []], List.cons_ne_nil _ _⟩
    let w' : Lasso := ⟨[(State.ofPropositions ["p", "q"]).assign "x" 5],
      [bare.assign "y" 7, (State.ofPropositions ["r"]).assign "x" 0], List.cons_ne_nil _ _⟩
    w.AgreeOn f w' ∧ w.evaluate f = w'.evaluate f := by
  intro f bare w w'
  have h : w.AgreeOn f w' :=
    { stem := .cons ⟨by decide, by decide⟩ .nil
      cycle := .cons ⟨by decide, by decide⟩ (.cons ⟨by decide, by decide⟩ .nil) }
  exact ⟨h, evaluate_eq_of_agreeOn h⟩

end Lasso
end LinearTemporal

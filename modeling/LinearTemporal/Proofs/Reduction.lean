import LinearTemporal.Proofs.RuleSoundness
import LinearTemporal.Simplification.Run

/-!
# What a simplification keeps

A relation between formulas that every operator respects, that chains, and that
each firing of a rule stays within also holds between a formula and its
simplification, however far the limits let the passes go.  Equivalence is such a
relation, so simplification keeps the truth value at every position of every
lasso.
-/

namespace LinearTemporal

open Formula

/-!
## The first rule that applies

It is a rule of the list with an outcome, and there is none exactly if no rule of the
list applies.
-/

namespace Rule

theorem firstApplicable_eq_none_iff {f : Formula} {rules : List Rule} :
    firstApplicable f rules = none ↔ ∀ rule ∈ rules, rule.apply f = none := by
  induction rules with
  | nil => simp [firstApplicable]
  | cons rule rules ih =>
      unfold firstApplicable
      cases happly : rule.apply f with
      | none => simp [happly, ih]
      | some g => simp [happly]

theorem mem_and_apply_of_firstApplicable {f g : Formula} {rules : List Rule} {rule : Rule}
    (h : firstApplicable f rules = some (rule, g)) : rule ∈ rules ∧ rule.apply f = some g := by
  induction rules with
  | nil => cases h
  | cons first rules ih =>
      unfold firstApplicable at h
      split at h
      · rename_i happly
        cases h
        exact ⟨List.mem_cons_self, happly⟩
      · rcases ih h with ⟨hmem, happly⟩
        exact ⟨List.mem_cons_of_mem first hmem, happly⟩

end Rule

namespace Simplification

/-!
## Outcomes

A reduction of parts is cut short if one of them is, and firing at a node is one firing
after the other.
-/

theorem Outcome.exhausted_andThen (first second : Outcome) :
    (first.andThen second).exhausted = (first.exhausted || second.exhausted) :=
  rfl

theorem formula_reduceParts (reduce : Formula → Outcome) (f : Formula) :
    (reduceParts reduce f).formula = f.mapChildren (fun g => (reduce g).formula) := by
  show f.withChildren ((f.children.map reduce).map Outcome.formula) = _
  rw [List.map_map]
  rfl

theorem exhausted_reduceParts {reduce : Formula → Outcome} {f : Formula} :
    (reduceParts reduce f).exhausted = false ↔
      ∀ g ∈ f.children, (reduce g).exhausted = false := by
  show (f.children.map reduce).any Outcome.exhausted = false ↔ _
  simp [List.any_eq_false]

section

variable {rules : List Rule} {f : Formula}

theorem settle_eq_unchanged (h : Rule.firstApplicable f rules = none)
    (reduce : Formula → Outcome) (limit : Nat) :
    settle rules reduce limit f = Outcome.unchanged f := by
  unfold settle
  rw [h]

variable {rule : Rule} {g : Formula} (h : Rule.firstApplicable f rules = some (rule, g))

include h

theorem settle_zero (reduce : Formula → Outcome) : settle rules reduce 0 f = ⟨f, [], true⟩ := by
  unfold settle
  rw [h]

theorem settle_succ (reduce : Formula → Outcome) (limit : Nat) :
    settle rules reduce (limit + 1) f =
      Outcome.andThen ⟨g, [rule.name], false⟩ ((reduceParts reduce g).andThen
        (settle rules reduce limit (reduceParts reduce g).formula)) := by
  rw [settle, h]

end

/-!
## Relations that rules respect

What every firing stays within, at the root or below it, is not left by a whole run: not
by the reduction of parts, nor by the firings at a node, nor by a series of passes,
wherever the limits end them.
-/

structure Respects (rules : List Rule) (R : Formula → Formula → Prop) : Prop where
  congruence : IsCongruence R
  trans : ∀ {f g h}, R f g → R g h → R f h
  fire : ∀ {rule f g}, rule ∈ rules → rule.apply f = some g → R f g

namespace Respects

variable {rules : List Rule} {R : Formula → Formula → Prop} (hR : Respects rules R)

include hR

theorem reduceParts {reduce : Formula → Outcome} (hreduce : ∀ f, R f (reduce f).formula)
    (f : Formula) : R f (reduceParts reduce f).formula := by
  rw [formula_reduceParts]
  exact hR.congruence.mapChildren fun g _ => hreduce g

theorem settle {reduce : Formula → Outcome} (hreduce : ∀ f, R f (reduce f).formula) (limit : Nat)
    (f : Formula) : R f (settle rules reduce limit f).formula := by
  induction limit generalizing f with
  | zero =>
      cases hfirst : Rule.firstApplicable f rules with
      | none =>
          rw [settle_eq_unchanged hfirst]
          exact hR.congruence.refl f
      | some fired =>
          rw [settle_zero hfirst]
          exact hR.congruence.refl f
  | succ limit ih =>
      cases hfirst : Rule.firstApplicable f rules with
      | none =>
          rw [settle_eq_unchanged hfirst]
          exact hR.congruence.refl f
      | some fired =>
          rcases Rule.mem_and_apply_of_firstApplicable hfirst with ⟨hrule, happly⟩
          rw [settle_succ hfirst]
          exact hR.trans (hR.fire hrule happly) (hR.trans (hR.reduceParts hreduce fired.2) (ih _))

theorem reduceWithin (maxPasses depth : Nat) (f : Formula) :
    R f (reduceWithin maxPasses rules depth f).formula := by
  induction depth generalizing f with
  | zero => exact hR.congruence.refl f
  | succ depth ih => exact hR.trans (hR.reduceParts ih f) (hR.settle ih _ _)

theorem pass (maxPasses : Nat) (f : Formula) : R f (pass maxPasses rules f).formula :=
  hR.reduceWithin maxPasses f.weight f

theorem runPasses (maxPasses remaining : Nat) (f : Formula) :
    R f (runPasses (Simplification.pass maxPasses rules) remaining f).formula := by
  induction remaining generalizing f with
  | zero => exact hR.congruence.refl f
  | succ remaining ih =>
      simp only [Simplification.runPasses]
      split
      · exact hR.congruence.refl f
      · exact hR.trans (hR.pass maxPasses f) (ih _)

omit hR in
theorem run {s : Simplifier} (hR : Respects s.strategy.rules R) (f : Formula) :
    R f (s.run f).1 :=
  hR.runPasses s.maxPasses s.maxPasses f

end Respects

/-!
## Soundness

Equivalence is such a relation for all strategies.
-/

theorem respects_equivalent (s : Strategy) : Respects s.rules Equivalent where
  congruence := isCongruence_equivalent
  trans := Equivalent.trans
  fire hrule happly := (Rule.Step.of_mem_rules hrule happly).equivalent

end Simplification

namespace Simplifier

theorem equivalent_run (s : Simplifier) (f : Formula) : Equivalent f (s.run f).1 :=
  (Simplification.respects_equivalent s.strategy).run f

/-- Simplification changes the truth value at no position of any lasso. -/
theorem holdsAt_run (s : Simplifier) (f : Formula) (w : Lasso) (i : Nat) :
    w.holdsAt f i = w.holdsAt (s.run f).1 i :=
  (s.equivalent_run f).holdsAt_eq w i

end Simplifier

end LinearTemporal

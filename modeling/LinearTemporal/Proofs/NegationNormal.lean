import LinearTemporal.Proofs.PassLimit

/-!
# Negation normal form

The propositional and the modal rules together have an outcome for every negation, and
for every formula that has a constant among its parts.  So a formula that is normal for
them has no negation at all, and no constant unless it is one: what negation is left is
in literals and in comparison operators.
-/

namespace LinearTemporal

open Formula

namespace Formula

/-- There is no negation but in leaves. -/
def IsNegationNormal (f : Formula) : Prop :=
  ∀ body, ¬ OccursIn (not body) f

theorem IsNegationNormal.ne_not {f : Formula} (h : f.IsNegationNormal) (body : Formula) :
    f ≠ not body := by
  rintro rfl
  exact h body OccursIn.root

theorem IsNegationNormal.children {f g : Formula} (h : f.IsNegationNormal)
    (hg : g ∈ f.children) : g.IsNegationNormal := by
  intro body hbody
  exact h body (OccursIn.part hg hbody)

def IsConstantFree (f : Formula) : Prop :=
  ∀ value, ¬ OccursIn (const value) f

end Formula

/-!
## Formulas for which there is a rule

Negation of a constant, a leaf or a negation is propositional, and that of an operator
is pushed through it.  Every operator has a law for constants below it.
-/

namespace Rule

theorem isRedex_not_literal (name : String) (negated : Bool) :
    IsRedex propositional (.not (.literal name negated)) :=
  IsRedex.of_transform negateLeaf (by simp [propositional]) rfl

theorem isRedex_not (body : Formula) : IsRedex (propositional ++ modal) (.not body) := by
  cases body with
  | const value => exact IsRedex.of_transform foldConstants (by simp [propositional]) rfl
  | literal name negated =>
      exact (isRedex_not_literal name negated).mono (List.subset_append_left _ _)
  | atom left op right => exact IsRedex.of_transform negateLeaf (by simp [propositional]) rfl
  | not body => exact IsRedex.of_transform doubleNegation (by simp [propositional]) rfl
  | next | always | eventually | untl | release | junction =>
      exact IsRedex.of_transform pushNegation (by simp [modal]) rfl

theorem isSome_foldConstants {k : Connective} {fs : List Formula} {value : Bool}
    (h : Formula.const value ∈ fs) : (foldConstants (.junction k fs)).isSome = true := by
  have hconst : fs.any (fun f => f.constant?.isSome) = true :=
    List.any_eq_true.mpr ⟨_, h, rfl⟩
  simp only [foldConstants, hconst]
  split <;> rfl

theorem isSome_temporalConstants {left right : Formula} {value : Bool}
    (h : Formula.const value ∈ [left, right]) :
    (temporalConstants (.untl left right)).isSome = true ∧
      (temporalConstants (.release left right)).isSome = true := by
  rcases List.mem_pair.mp h with rfl | rfl
  · cases value <;> cases right <;> exact ⟨rfl, rfl⟩
  · cases left <;> exact ⟨rfl, rfl⟩

theorem isRedex_of_const_mem_children {f : Formula} {value : Bool}
    (h : Formula.const value ∈ f.children) : IsRedex (propositional ++ modal) f := by
  have htemporal : temporalConstants ∈ (propositional ++ modal).map Rule.transform := by
    simp [modal]
  cases f with
  | const | literal | atom => cases h
  | not body => exact isRedex_not body
  | next body | always body | eventually body =>
      rcases List.mem_singleton.mp h with rfl
      exact IsRedex.of_transform temporalConstants htemporal rfl
  | untl left right =>
      exact IsRedex.of_transform temporalConstants htemporal (isSome_temporalConstants h).1
  | release left right =>
      exact IsRedex.of_transform temporalConstants htemporal (isSome_temporalConstants h).2
  | junction k fs =>
      exact IsRedex.of_transform foldConstants (by simp [propositional]) (isSome_foldConstants h)

end Rule

/-!
## Normal formulas of the stronger strategies

They have no node for which there is a rule, so what is excluded at one node is excluded
at all.
-/

theorem Strategy.modal_subset_rules {s : Strategy} (hs : s = .modal ∨ s = .aggressive) :
    Rule.propositional ++ Rule.modal ⊆ s.rules := by
  rcases hs with rfl | rfl
  · exact List.Subset.refl _
  · exact List.subset_append_left _ Rule.subsumption

namespace Formula.IsNormal

variable {s : Strategy} (hs : s = .modal ∨ s = .aggressive) {f : Formula}
  (hnormal : f.IsNormal s.rules) (hf : f.IsValid)

include hs hnormal hf

theorem isNegationNormal : f.IsNegationNormal := by
  intro body hbody
  have hredex := (Rule.isRedex_not body).mono (Strategy.modal_subset_rules hs)
  exact (hnormal.of_occursIn hbody).not_isRedex (hf.of_occursIn hbody) hredex

theorem eq_const_of_occursIn {value : Bool} (h : OccursIn (const value) f) :
    f = const value := by
  rcases h.eq_or_exists_parent with heq | ⟨parent, hparent, hconst⟩
  · exact heq.symm
  · have hredex := (Rule.isRedex_of_const_mem_children hconst).mono
      (Strategy.modal_subset_rules hs)
    exact absurd hredex ((hnormal.of_occursIn hparent).not_isRedex (hf.of_occursIn hparent))

theorem eq_const_or_isConstantFree : (∃ value, f = const value) ∨ f.IsConstantFree := by
  by_cases h : ∃ value, OccursIn (const value) f
  · rcases h with ⟨value, hvalue⟩
    exact Or.inl ⟨value, eq_const_of_occursIn hs hnormal hf hvalue⟩
  · exact Or.inr fun value hvalue => h ⟨value, hvalue⟩

end Formula.IsNormal

namespace Simplifier

theorem isNegationNormal_run (s : Simplifier)
    (hs : s.strategy = .modal ∨ s.strategy = .aggressive) (hpasses : 1 ≤ s.maxPasses)
    {f : Formula} (hf : f.IsValid) : (s.run f).1.IsNegationNormal :=
  IsNormal.isNegationNormal hs (s.isNormal_run hpasses hf) (s.isValid_run hf)

/-- A simplification with the modal rules leaves no negation but in leaves, and no
constant unless the result is one. -/
theorem run_negation_constant (s : Simplifier)
    (hs : s.strategy = .modal ∨ s.strategy = .aggressive) (hpasses : 1 ≤ s.maxPasses)
    {f : Formula} (hf : f.IsValid) :
    (s.run f).1.IsNegationNormal ∧
      ((∃ value, (s.run f).1 = .const value) ∨ (s.run f).1.IsConstantFree) := by
  constructor
  · exact s.isNegationNormal_run hs hpasses hf
  · exact IsNormal.eq_const_or_isConstantFree hs (s.isNormal_run hpasses hf) (s.isValid_run hf)

theorem run_negation_constant_not_untl :
    let s : Simplifier := ⟨.modal, 1⟩
    let f : Formula := .not (.untl (.literal "p" false)
      (.junction .or [.const false, .not (.always (.literal "q" false))]))
    s.strategy = .modal ∧ 1 ≤ s.maxPasses ∧ f.IsValid ∧ (s.run f).1.IsNegationNormal ∧
      ((∃ value, (s.run f).1 = .const value) ∨ (s.run f).1.IsConstantFree) := by
  intro s f
  have hf : f.IsValid := rfl
  exact ⟨rfl, Nat.le_refl 1, hf, run_negation_constant s (Or.inl rfl) (Nat.le_refl 1) hf⟩

end Simplifier

end LinearTemporal

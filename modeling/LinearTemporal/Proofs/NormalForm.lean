import LinearTemporal.Proofs.Reduction
import LinearTemporal.Proofs.RuleTermination

/-!
# A pass reaches a normal form

A formula is normal for some rules if none of them applies at any of its nodes.  A
pass over a formula in canonical shape is never cut short and ends in a normal
formula: the weight leaves room for the nesting of the reductions, the charge for
the firings at each node, and when the parts are normal at the start of a firing,
they are normal again after the parts of its outcome were reduced.
-/

namespace LinearTemporal

open Formula

namespace Formula

/-!
## Normal formulas

An outcome weighs less than the formula, so it counts as a change.  Hence no rule has an
outcome for a normal formula.
-/

/-- No rule applies at any node. -/
def IsNormal (rules : List Rule) (f : Formula) : Prop :=
  ∀ g, g.OccursIn f → ∀ rule ∈ rules, rule.apply g = none

theorem IsNormal.root {rules : List Rule} {f : Formula} (h : f.IsNormal rules) :
    ∀ rule ∈ rules, rule.apply f = none :=
  h f OccursIn.root

theorem IsNormal.children {rules : List Rule} {f : Formula} (h : f.IsNormal rules) :
    ∀ g ∈ f.children, g.IsNormal rules := by
  intro part hpart g hg
  exact h g (OccursIn.part hpart hg)

theorem IsNormal.of_children {rules : List Rule} {f : Formula}
    (hroot : ∀ rule ∈ rules, rule.apply f = none)
    (hchildren : ∀ g ∈ f.children, g.IsNormal rules) : f.IsNormal rules := by
  intro g hg
  cases hg with
  | root => exact hroot
  | part hpart hg => exact hchildren _ hpart g hg

theorem IsNormal.of_occursIn {rules : List Rule} {f g : Formula} (h : f.IsNormal rules)
    (hg : g.OccursIn f) : g.IsNormal rules := by
  induction hg with
  | root => exact h
  | part hpart _ ih => exact ih (h.children _ hpart)

end Formula

namespace Rule

def IsRedex (rules : List Rule) (f : Formula) : Prop :=
  ∃ rule ∈ rules, (rule.transform f).isSome = true

theorem IsRedex.mono {rules rules' : List Rule} {f : Formula} (h : IsRedex rules f)
    (hsub : rules ⊆ rules') : IsRedex rules' f := by
  rcases h with ⟨rule, hrule, hsome⟩
  exact ⟨rule, hsub hrule, hsome⟩

theorem IsRedex.of_transform {rules : List Rule} (transform : Formula → Option Formula)
    (h : transform ∈ rules.map Rule.transform) {f : Formula} (hsome : (transform f).isSome = true) :
    IsRedex rules f := by
  rcases List.mem_map.mp h with ⟨rule, hrule, rfl⟩
  exact ⟨rule, hrule, hsome⟩

end Rule

theorem Formula.IsNormal.not_isRedex {s : Strategy} {f : Formula} (h : f.IsNormal s.rules)
    (hf : f.IsValid) : ¬ Rule.IsRedex s.rules f := by
  rintro ⟨rule, hrule, hsome⟩
  rcases Option.isSome_iff_exists.mp hsome with ⟨g, htransform⟩
  have hlt := (Rule.Step.of_transform hrule htransform).weight_lt hf
  have hne : g ≠ f := by
    rintro rfl
    exact Nat.lt_irrefl _ hlt
  have happly : rule.apply f = some g := by
    simp [Rule.apply, htransform, hne]
  rw [h.root rule hrule] at happly
  cases happly

namespace Simplification

/-!
## What no firing raises

A measure that no law raises on valid formulas is not raised by a run of rules, and
neither is a transitive congruence left that every firing on a valid formula stays
within.  Both keep formulas valid.
-/

theorem respects_ofValid {R : Formula → Formula → Prop} (hR : IsCongruence R)
    (htrans : ∀ {f g h}, R f g → R g h → R f h) {s : Strategy}
    (hfire : ∀ {rule f g}, rule ∈ s.rules → rule.transform f = some g → f.IsValid → R f g) :
    Respects s.rules (fun f g => f.IsValid → g.IsValid ∧ R f g) where
  congruence := hR.ofValid
  trans := by
    intro f g h hfg hgh hf
    rcases hfg hf with ⟨hg, hle⟩
    rcases hgh hg with ⟨hh, hle'⟩
    exact ⟨hh, htrans hle hle'⟩
  fire := by
    intro rule f g hrule happly hf
    have htransform := Rule.transform_of_apply happly
    exact ⟨(Rule.Step.of_transform hrule htransform).isValid hf, hfire hrule htransform hf⟩

theorem respects_measure {m : Formula → Nat} (hm : IsMeasure m)
    (hstep : ∀ {f g}, Rule.Step f g → f.IsValid → m g ≤ m f) (s : Strategy) :
    Respects s.rules (fun f g => f.IsValid → g.IsValid ∧ m g ≤ m f) :=
  respects_ofValid hm.isCongruence (fun hfg hgh => Nat.le_trans hgh hfg)
    fun hrule htransform hf => hstep (Rule.Step.of_transform hrule htransform) hf

theorem respects_weight (s : Strategy) :
    Respects s.rules (fun f g => f.IsValid → g.IsValid ∧ g.weight ≤ f.weight) :=
  respects_measure isMeasure_weight (fun h hf => Nat.le_of_lt (h.weight_lt hf)) s

theorem respects_bulk (s : Strategy) :
    Respects s.rules (fun f g => f.IsValid → g.IsValid ∧ g.bulk ≤ f.bulk) :=
  respects_measure isMeasure_bulk (fun h hf => h.unsigned_le isUnsigned_bulk hf) s

/-!
## Complete outcomes

A formula is ready for firing if it is valid, no heavier than the reduction of parts
allows, and has normal parts.  After a firing and the reduction of the parts of its
outcome it is ready again with less charge, so with enough firings for the charge it
ends in a normal formula.
-/

structure Outcome.IsComplete (rules : List Rule) (outcome : Outcome) : Prop where
  exhausted : outcome.exhausted = false
  normal : outcome.formula.IsNormal rules

/-- The reduction is complete on valid formulas up to some weight, and raises neither
weight nor bulk. -/
structure Completes (s : Strategy) (depth : Nat) (reduce : Formula → Outcome) : Prop where
  complete : ∀ {f}, f.IsValid → f.weight ≤ depth → (reduce f).IsComplete s.rules
  weight : ∀ f, f.IsValid → (reduce f).formula.IsValid ∧ (reduce f).formula.weight ≤ f.weight
  bulk : ∀ f, f.IsValid → (reduce f).formula.IsValid ∧ (reduce f).formula.bulk ≤ f.bulk

structure Ready (s : Strategy) (depth : Nat) (f : Formula) : Prop where
  isValid : f.IsValid
  weight : f.weight ≤ depth + 1
  parts : ∀ g ∈ f.children, g.IsNormal s.rules

namespace Completes

variable {s : Strategy} {depth : Nat} {reduce : Formula → Outcome}

theorem reduceParts (h : Completes s depth reduce) {f : Formula} (hf : f.IsValid)
    (hweight : f.weight ≤ depth + 1) :
    (reduceParts reduce f).exhausted = false ∧ Ready s depth (reduceParts reduce f).formula := by
  have hparts : ∀ g ∈ f.children, (reduce g).IsComplete s.rules := by
    intro g hg
    have hlt := weight_lt_of_mem_children hg
    exact h.complete (hf.children hg) (by omega)
  have hlighter : f.IsValid → (f.mapChildren fun g => (reduce g).formula).IsValid ∧
      (f.mapChildren fun g => (reduce g).formula).weight ≤ f.weight :=
    isMeasure_weight.isCongruence.ofValid.mapChildren fun g _ => h.weight g
  constructor
  · exact exhausted_reduceParts.mpr fun g hg => (hparts g hg).exhausted
  · rw [formula_reduceParts]
    refine ⟨(hlighter hf).1, Nat.le_trans (hlighter hf).2 hweight, ?_⟩
    exact mem_children_mapChildren (fun _ => IsNormal.children) fun g hg => (hparts g hg).normal

theorem fire (h : Completes s depth reduce) {f g : Formula} {rule : Rule} (hf : Ready s depth f)
    (hfirst : Rule.firstApplicable f s.rules = some (rule, g)) :
    (Simplification.reduceParts reduce g).exhausted = false ∧
      Ready s depth (Simplification.reduceParts reduce g).formula ∧
        s.charge (Simplification.reduceParts reduce g).formula < s.charge f := by
  rcases Rule.mem_and_apply_of_firstApplicable hfirst with ⟨hrule, happly⟩
  have hstep := Rule.Step.of_mem_rules hrule happly
  have hg := hstep.isValid hf.isValid
  have hlt := hstep.weight_lt hf.isValid
  rcases h.reduceParts hg (Nat.le_trans (Nat.le_of_lt hlt) hf.weight) with ⟨hexhausted, hready⟩
  refine ⟨hexhausted, hready, ?_⟩
  rw [formula_reduceParts]
  exact Strategy.charge_mapChildren_lt hrule happly (fun c hc => (hf.parts c hc).root)
    fun c hc => (h.bulk c (hg.children hc)).2

theorem settle (h : Completes s depth reduce) {limit : Nat} {f : Formula} (hf : Ready s depth f)
    (hlimit : s.charge f ≤ limit) : (settle s.rules reduce limit f).IsComplete s.rules := by
  induction limit generalizing f with
  | zero =>
      cases hfirst : Rule.firstApplicable f s.rules with
      | none =>
          rw [settle_eq_unchanged hfirst]
          exact ⟨rfl, IsNormal.of_children (Rule.firstApplicable_eq_none_iff.mp hfirst) hf.parts⟩
      | some fired =>
          have hcharge := (h.fire hf hfirst).2.2
          omega
  | succ limit ih =>
      cases hfirst : Rule.firstApplicable f s.rules with
      | none =>
          rw [settle_eq_unchanged hfirst]
          exact ⟨rfl, IsNormal.of_children (Rule.firstApplicable_eq_none_iff.mp hfirst) hf.parts⟩
      | some fired =>
          rcases h.fire hf hfirst with ⟨hexhausted, hready, hcharge⟩
          have hrest := ih hready (by omega)
          rw [settle_succ hfirst]
          constructor
          · rw [Outcome.exhausted_andThen, Outcome.exhausted_andThen, hexhausted, hrest.exhausted]
            rfl
          · exact hrest.normal

end Completes

theorem le_firingLimit (rules : List Rule) {maxPasses : Nat} (hpasses : 1 ≤ maxPasses)
    {firings size : Nat} (h : firings ≤ rules.length * size) :
    firings ≤ firingLimit maxPasses rules size := by
  unfold firingLimit
  rw [Nat.mul_assoc]
  exact Nat.le_trans h (Nat.le_mul_of_pos_left _ hpasses)

theorem completes_reduceWithin (s : Strategy) {maxPasses : Nat} (hpasses : 1 ≤ maxPasses)
    (depth : Nat) : Completes s depth (reduceWithin maxPasses s.rules depth) := by
  induction depth with
  | zero =>
      refine ⟨?_, ?_, ?_⟩
      · intro f _ hweight
        have hpos := weight_pos f
        omega
      · exact (respects_weight s).reduceWithin maxPasses 0
      · exact (respects_bulk s).reduceWithin maxPasses 0
  | succ depth ih =>
      refine ⟨?_, (respects_weight s).reduceWithin maxPasses (depth + 1),
        (respects_bulk s).reduceWithin maxPasses (depth + 1)⟩
      intro f hf hweight
      rcases ih.reduceParts hf hweight with ⟨hexhausted, hready⟩
      have hlimit := le_firingLimit s.rules hpasses (Strategy.charge_le_limit s
        (reduceParts (reduceWithin maxPasses s.rules depth) f).formula)
      have hrest := ih.settle hready hlimit
      constructor
      · unfold reduceWithin
        rw [Outcome.exhausted_andThen, hexhausted, hrest.exhausted]
        rfl
      · exact hrest.normal

/-- A pass over a valid formula is not cut short and leaves a normal formula. -/
theorem isComplete_pass (s : Strategy) {maxPasses : Nat} (hpasses : 1 ≤ maxPasses)
    {f : Formula} (hf : f.IsValid) : (pass maxPasses s.rules f).IsComplete s.rules :=
  (completes_reduceWithin s hpasses f.weight).complete hf (Nat.le_refl _)

/-!
## Normal formulas stay as they are

No rule applies at any of their nodes, so a pass returns them without a firing.
-/

theorem reduceParts_eq_unchanged {reduce : Formula → Outcome} {f : Formula}
    (h : ∀ g ∈ f.children, reduce g = Outcome.unchanged g) :
    reduceParts reduce f = Outcome.unchanged f := by
  have hparts : f.children.map reduce = f.children.map Outcome.unchanged :=
    List.map_congr_left h
  have hformula : f.withChildren ((f.children.map Outcome.unchanged).map Outcome.formula) = f := by
    rw [List.map_map]
    exact mapChildren_of_map_eq id (List.map_id _)
  unfold reduceParts
  rw [hparts]
  show Outcome.mk (f.withChildren _) _ _ = _
  rw [hformula]
  simp [Outcome.unchanged]

theorem reduceWithin_eq_unchanged {maxPasses depth : Nat} {rules : List Rule} {f : Formula}
    (hnormal : f.IsNormal rules) (hweight : f.weight ≤ depth) :
    reduceWithin maxPasses rules depth f = Outcome.unchanged f := by
  induction depth generalizing f with
  | zero =>
      have hpos := weight_pos f
      omega
  | succ depth ih =>
      have hparts : reduceParts (reduceWithin maxPasses rules depth) f = Outcome.unchanged f := by
        apply reduceParts_eq_unchanged
        intro g hg
        have hlt := weight_lt_of_mem_children hg
        exact ih (hnormal.children g hg) (by omega)
      have hnone := Rule.firstApplicable_eq_none_iff.mpr hnormal.root
      unfold reduceWithin
      simp only [hparts]
      show (Outcome.unchanged f).andThen (settle rules _ _ f) = Outcome.unchanged f
      rw [settle_eq_unchanged hnone]
      rfl

theorem pass_eq_unchanged {maxPasses : Nat} {rules : List Rule} {f : Formula}
    (h : f.IsNormal rules) : pass maxPasses rules f = Outcome.unchanged f :=
  reduceWithin_eq_unchanged h (Nat.le_refl _)

end Simplification

end LinearTemporal

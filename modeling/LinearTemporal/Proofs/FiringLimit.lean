import LinearTemporal.Proofs.PassLimit

/-!
# Firing ends by itself

The limit on the firings at a node is a safeguard that is never needed.  This module
describes reduction without it: a relation whose derivations follow the calls that a
reduction makes, where firing at a node ends only because no rule applies there any
more.  On valid formulas the relation holds of exactly one outcome, that of a pass, and
the firings at every node of the derivation stay within the limit.
-/

namespace LinearTemporal

open Formula

namespace Simplification

/-!
## Reduction without a limit

A formula is reduced by reducing its parts and then firing at the root, until no rule
applies there any more.  `admits` is asked about every node: whether so many firings may
happen at a node of that size.
-/

section

variable (rules : List Rule) (admits : Nat → Nat → Prop)

mutual

/-- A formula is reduced by reducing its parts and then firing at the root.  `admits`
is asked about every node: whether so many firings may happen at a node of that size. -/
inductive Reduces : Formula → Formula → List String → Prop where
  | intro {f g : Formula} {parts : List Formula} {fired fired' : List String} {firings : Nat} :
      ReducesAll f.children parts fired →
      Settles firings (f.withChildren parts) g fired' →
      admits firings (f.withChildren parts).size →
      Reduces f g (fired ++ fired')

inductive ReducesAll : List Formula → List Formula → List String → Prop where
  | nil : ReducesAll [] [] []
  | cons {f g : Formula} {fs gs : List Formula} {fired fired' : List String} :
      Reduces f g fired → ReducesAll fs gs fired' →
      ReducesAll (f :: fs) (g :: gs) (fired ++ fired')

/-- So many firings at the root, the parts of each outcome reduced after it, end where
no rule applies. -/
inductive Settles : Nat → Formula → Formula → List String → Prop where
  | done {f : Formula} : Rule.firstApplicable f rules = none → Settles 0 f f []
  | fire {f g h : Formula} {rule : Rule} {parts : List Formula} {fired fired' : List String}
      {firings : Nat} :
      Rule.firstApplicable f rules = some (rule, g) →
      ReducesAll g.children parts fired →
      Settles firings (g.withChildren parts) h fired' →
      Settles (firings + 1) f h (rule.name :: (fired ++ fired'))

end

end

variable {rules : List Rule} {admits : Nat → Nat → Prop}

theorem settles_iff_of_none {f : Formula} (h : Rule.firstApplicable f rules = none) {firings : Nat}
    {g : Formula} {fired : List String} :
    Settles rules admits firings f g fired ↔ firings = 0 ∧ g = f ∧ fired = [] := by
  constructor
  · intro hsettles
    cases hsettles with
    | done => exact ⟨rfl, rfl, rfl⟩
    | fire hfirst =>
        rw [h] at hfirst
        cases hfirst
  · intro heq
    rcases heq with ⟨rfl, rfl, rfl⟩
    exact Settles.done h

/-!
## The only outcome

What a rule makes of a formula at which firing can start is no heavier, so its parts can
be reduced.  Firing at a node therefore ends in one way only, and after no more firings
than the charge of the node.
-/

def Determines (rules : List Rule) (admits : Nat → Nat → Prop) (reduce : Formula → Outcome)
    (f : Formula) : Prop :=
  ∀ g fired, Reduces rules admits f g fired ↔
    g = (reduce f).formula ∧ fired = (reduce f).fired

theorem reducesAll_iff {reduce : Formula → Outcome} {fs : List Formula}
    (h : ∀ f ∈ fs, Determines rules admits reduce f) {gs : List Formula} {fired : List String} :
    ReducesAll rules admits fs gs fired ↔
      gs = (fs.map reduce).map Outcome.formula ∧
        fired = (fs.map reduce).flatMap Outcome.fired := by
  induction fs generalizing gs fired with
  | nil =>
      constructor
      · intro hall
        cases hall
        exact ⟨rfl, rfl⟩
      · intro heq
        rcases heq with ⟨rfl, rfl⟩
        exact ReducesAll.nil
  | cons f fs ih =>
      have hf := h f List.mem_cons_self
      have hfs := fun gs fired => @ih (fun f' hf' => h f' (List.mem_cons_of_mem f hf')) gs fired
      constructor
      · intro hall
        cases hall with
        | cons hhead htail =>
            rcases (hf _ _).mp hhead with ⟨rfl, rfl⟩
            rcases (hfs _ _).mp htail with ⟨rfl, rfl⟩
            exact ⟨rfl, rfl⟩
      · intro heq
        rcases heq with ⟨rfl, rfl⟩
        exact ReducesAll.cons ((hf _ _).mpr ⟨rfl, rfl⟩) ((hfs _ _).mpr ⟨rfl, rfl⟩)

theorem Ready.of_firstApplicable {s : Strategy} {depth : Nat} {f g : Formula} {rule : Rule}
    (hf : Ready s depth f) (hfirst : Rule.firstApplicable f s.rules = some (rule, g)) :
    g.IsValid ∧ g.weight ≤ depth + 1 := by
  rcases Rule.mem_and_apply_of_firstApplicable hfirst with ⟨hrule, happly⟩
  have hstep := Rule.Step.of_mem_rules hrule happly
  have hlt := hstep.weight_lt hf.isValid
  exact ⟨hstep.isValid hf.isValid, Nat.le_trans (Nat.le_of_lt hlt) hf.weight⟩

section

variable {s : Strategy} {depth : Nat} {reduce : Formula → Outcome}
  (hreduce : ∀ f, f.IsValid → f.weight ≤ depth → Determines s.rules admits reduce f)

include hreduce

theorem reducesParts_iff {f : Formula} (hf : f.IsValid) (hweight : f.weight ≤ depth + 1)
    {parts : List Formula} {fired : List String} :
    ReducesAll s.rules admits f.children parts fired ↔
      parts = (f.children.map reduce).map Outcome.formula ∧
        fired = (reduceParts reduce f).fired := by
  apply reducesAll_iff
  intro part hpart
  have hlt := weight_lt_of_mem_children hpart
  exact hreduce part (hf.children hpart) (by omega)

theorem Completes.settles_iff (h : Completes s depth reduce) {limit : Nat} {f : Formula}
    (hf : Ready s depth f) (hlimit : s.charge f ≤ limit) :
    ∃ n, n ≤ s.charge f ∧ ∀ {firings g fired}, Settles s.rules admits firings f g fired ↔
      firings = n ∧ g = (Simplification.settle s.rules reduce limit f).formula ∧
        fired = (Simplification.settle s.rules reduce limit f).fired := by
  induction limit generalizing f with
  | zero =>
      cases hfirst : Rule.firstApplicable f s.rules with
      | none =>
          rw [settle_eq_unchanged hfirst]
          exact ⟨0, Nat.zero_le _, settles_iff_of_none hfirst⟩
      | some outcome =>
          have hcharge := (h.fire hf hfirst).2.2
          omega
  | succ limit ih =>
      cases hfirst : Rule.firstApplicable f s.rules with
      | none =>
          rw [settle_eq_unchanged hfirst]
          exact ⟨0, Nat.zero_le _, settles_iff_of_none hfirst⟩
      | some outcome =>
          rcases outcome with ⟨rule, g⟩
          rcases h.fire hf hfirst with ⟨_, hready, hcharge⟩
          rcases hf.of_firstApplicable hfirst with ⟨hg, hweight⟩
          rcases ih hready (by omega) with ⟨n, hn, hrest⟩
          refine ⟨n + 1, by omega, ?_⟩
          intro firings g' fired
          rw [settle_succ hfirst]
          constructor
          · intro hsettles
            cases hsettles with
            | done hnone =>
                rw [hfirst] at hnone
                cases hnone
            | fire hfirst' hparts hsettles =>
                rw [hfirst] at hfirst'
                cases hfirst'
                rcases (reducesParts_iff hreduce hg hweight).mp hparts with ⟨rfl, rfl⟩
                rcases hrest.mp hsettles with ⟨rfl, rfl, rfl⟩
                exact ⟨rfl, rfl, rfl⟩
          · intro heq
            rcases heq with ⟨rfl, rfl, rfl⟩
            have hparts := (reducesParts_iff hreduce hg hweight).mpr ⟨rfl, rfl⟩
            have hsettles := hrest.mpr ⟨rfl, rfl, rfl⟩
            have hfired := Settles.fire hfirst hparts hsettles
            exact hfired

end

theorem determines_reduceWithin (s : Strategy) {maxPasses : Nat} (hpasses : 1 ≤ maxPasses)
    (hadmits : ∀ firings size, firings ≤ s.rules.length * size → admits firings size)
    {depth : Nat} {f : Formula} (hf : f.IsValid) (hweight : f.weight ≤ depth) :
    Determines s.rules admits (reduceWithin maxPasses s.rules depth) f := by
  induction depth generalizing f with
  | zero =>
      have hpos := weight_pos f
      omega
  | succ depth ih =>
      have hreduce := fun (f : Formula) (hf : f.IsValid) (hweight : f.weight ≤ depth) =>
        ih hf hweight
      have hcompletes := completes_reduceWithin s hpasses depth
      have hready := (hcompletes.reduceParts hf hweight).2
      rcases hcompletes.settles_iff hreduce hready
        (le_firingLimit s.rules hpasses (Strategy.charge_le_limit s _)) with
        ⟨n, hn, hsettles⟩
      intro g fired
      constructor
      · intro hreduces
        cases hreduces with
        | intro hparts hsettled _ =>
            rcases (reducesParts_iff hreduce hf hweight).mp hparts with ⟨rfl, rfl⟩
            rcases hsettles.mp hsettled with ⟨_, rfl, rfl⟩
            exact ⟨rfl, rfl⟩
      · intro heq
        rcases heq with ⟨rfl, rfl⟩
        have hparts := (reducesParts_iff hreduce hf hweight).mpr ⟨rfl, rfl⟩
        have hsettled := hsettles.mpr ⟨rfl, rfl, rfl⟩
        have hadmitted := hadmits _ _ (Nat.le_trans hn (Strategy.charge_le_limit s _))
        exact Reduces.intro hparts hsettled hadmitted

theorem determines_pass (s : Strategy) {maxPasses : Nat} (hpasses : 1 ≤ maxPasses)
    (hadmits : ∀ firings size, firings ≤ s.rules.length * size → admits firings size)
    {f : Formula} (hf : f.IsValid) : Determines s.rules admits (pass maxPasses s.rules) f :=
  determines_reduceWithin s hpasses hadmits hf (Nat.le_refl _)

/-!
## The passes of a run

A run is a series of passes, each of which starts from a valid formula.
-/

def afterPasses (makePass : Formula → Outcome) : Nat → Formula → Formula
  | 0, f => f
  | passes + 1, f => afterPasses makePass passes (makePass f).formula

theorem formula_runPasses (makePass : Formula → Outcome) (remaining : Nat) (f : Formula) :
    (runPasses makePass remaining f).formula =
      afterPasses makePass (runPasses makePass remaining f).passes f := by
  induction remaining generalizing f with
  | zero => rfl
  | succ remaining ih =>
      unfold runPasses
      by_cases hstop : (makePass f).formula = f ∧ (makePass f).exhausted = false
      · simp only [hstop, and_self, ↓reduceIte]
        exact hstop.1.symm
      · simp only [hstop, ↓reduceIte]
        exact ih (makePass f).formula

theorem isValid_afterPasses (s : Strategy) (maxPasses : Nat) {f : Formula} (hf : f.IsValid)
    (passes : Nat) : (afterPasses (pass maxPasses s.rules) passes f).IsValid := by
  induction passes generalizing f with
  | zero => exact hf
  | succ passes ih => exact ih ((respects_weight s).pass maxPasses f hf).1

end Simplification

namespace Simplifier

open Simplification

/-- The limit on firings plays no part in a pass over a formula. -/
structure NeedsNoLimit (s : Simplifier) (f : Formula) : Prop where
  /-- No reduction in the pass was cut short. -/
  exhausted : (pass s.maxPasses s.strategy.rules f).exhausted = false
  /-- At every node the firings end, because no rule applies any more, within the limit. -/
  within : Reduces s.strategy.rules
    (fun firings size => firings ≤ firingLimit s.maxPasses s.strategy.rules size) f
    (pass s.maxPasses s.strategy.rules f).formula (pass s.maxPasses s.strategy.rules f).fired
  /-- Without any limit the reduction ends too, and with the same outcome only. -/
  without : ∀ g fired, Reduces s.strategy.rules (fun _ _ => True) f g fired ↔
    g = (pass s.maxPasses s.strategy.rules f).formula ∧
      fired = (pass s.maxPasses s.strategy.rules f).fired

theorem needsNoLimit (s : Simplifier) (hpasses : 1 ≤ s.maxPasses) {f : Formula}
    (hf : f.IsValid) : s.NeedsNoLimit f where
  exhausted := (isComplete_pass s.strategy hpasses hf).exhausted
  within := by
    refine (determines_pass s.strategy hpasses ?_ hf _ _).mpr ⟨rfl, rfl⟩
    intro firings size hle
    exact le_firingLimit s.strategy.rules hpasses hle
  without := determines_pass s.strategy hpasses (fun _ _ _ => trivial) hf

/-- A run is a series of passes, and none of them needs the limit on firings. -/
theorem run_needsNoLimit (s : Simplifier) (hpasses : 1 ≤ s.maxPasses) {f : Formula}
    (hf : f.IsValid) :
    (s.run f).1 = afterPasses (pass s.maxPasses s.strategy.rules) (s.run f).2.passes f ∧
      ∀ passes, s.NeedsNoLimit (afterPasses (pass s.maxPasses s.strategy.rules) passes f) := by
  constructor
  · exact formula_runPasses _ s.maxPasses f
  · intro passes
    exact s.needsNoLimit hpasses (isValid_afterPasses s.strategy s.maxPasses hf passes)

theorem run_needsNoLimit_not_or :
    (Formula.not (.junction .or [.literal "p" false, .always (.literal "q" false)])).IsValid ∧
      1 ≤ (Simplifier.mk .modal 1).maxPasses ∧
      (Simplifier.mk .modal 1).NeedsNoLimit
        (.not (.junction .or [.literal "p" false, .always (.literal "q" false)])) := by
  have hf : (Formula.not (.junction .or
      [.literal "p" false, .always (.literal "q" false)])).IsValid := rfl
  exact ⟨hf, by decide, (run_needsNoLimit ⟨.modal, 1⟩ (by decide) hf).2 0⟩

end Simplifier

end LinearTemporal

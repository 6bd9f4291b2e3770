import LinearTemporal.Proofs.NormalForm

/-!
# One pass is enough

The limit of passes enters a run twice: it ends the run, and it scales the number of
firings allowed at a node.  Two reductions that are not cut short agree whatever
their limits are, so the second use changes nothing on formulas in canonical shape.
The first pass ends in a normal formula, which the second one leaves as it is.
-/

namespace LinearTemporal

open Formula

namespace Simplification

/-!
## Limits that are not reached do not matter

A reduction that is not cut short is repeated by any that has at least its limits.  It
may even have other rules, as long as its rules would not be the first to apply where
those of the other are; which rules are asked about is told by their names.
-/

/-- Wherever `reduce` is not cut short and fires admitted rules only, `reduce'` does the same. -/
def Matches (admits : String → Prop) (reduce reduce' : Formula → Outcome) : Prop :=
  ∀ f, (reduce f).exhausted = false → (∀ name ∈ (reduce f).fired, admits name) →
    reduce' f = reduce f

/-- Wherever an admitted rule of the first list, or none, is first to apply, the same is true of the
second. -/
def FiresAlike (admits : String → Prop) (rules rules' : List Rule) : Prop :=
  ∀ f, (∀ fired, Rule.firstApplicable f rules = some fired → admits fired.1.name) →
    Rule.firstApplicable f rules' = Rule.firstApplicable f rules

theorem FiresAlike.eq_none {admits : String → Prop} {rules rules' : List Rule}
    (hrules : FiresAlike admits rules rules') {f : Formula}
    (hfirst : Rule.firstApplicable f rules = none) : Rule.firstApplicable f rules' = none := by
  rw [hrules f (by simp [hfirst]), hfirst]

theorem FiresAlike.eq_some {admits : String → Prop} {rules rules' : List Rule}
    (hrules : FiresAlike admits rules rules') {f : Formula} {fired : Rule × Formula}
    (hfirst : Rule.firstApplicable f rules = some fired) (hadmitted : admits fired.1.name) :
    Rule.firstApplicable f rules' = some fired := by
  rw [hrules f (by simp [hfirst, hadmitted]), hfirst]

namespace Matches

variable {admits : String → Prop} {reduce reduce' : Formula → Outcome}
  (h : Matches admits reduce reduce')

include h

theorem reduceParts : Matches admits (reduceParts reduce) (reduceParts reduce') := by
  intro f hf hfired
  have hmap : f.children.map reduce' = f.children.map reduce := by
    apply List.map_congr_left
    intro g hg
    apply h g (exhausted_reduceParts.mp hf g hg)
    intro name hname
    exact hfired name (List.mem_flatMap.mpr ⟨_, List.mem_map_of_mem hg, hname⟩)
  unfold Simplification.reduceParts
  rw [hmap]

theorem settle {rules rules' : List Rule} (hrules : FiresAlike admits rules rules')
    {limit limit' : Nat} (hlimit : limit ≤ limit') :
    Matches admits (settle rules reduce limit) (settle rules' reduce' limit') := by
  induction limit generalizing limit' with
  | zero =>
      intro f hf _
      cases hfirst : Rule.firstApplicable f rules with
      | none =>
          rw [settle_eq_unchanged hfirst, settle_eq_unchanged (hrules.eq_none hfirst)]
      | some fired =>
          rw [settle_zero hfirst] at hf
          cases hf
  | succ limit ih =>
      intro f hf hfired
      cases hfirst : Rule.firstApplicable f rules with
      | none =>
          rw [settle_eq_unchanged hfirst, settle_eq_unchanged (hrules.eq_none hfirst)]
      | some fired =>
          rw [settle_succ hfirst] at hf hfired ⊢
          have hfirst' := hrules.eq_some hfirst (hfired _ List.mem_cons_self)
          simp only [Outcome.exhausted_andThen, Bool.false_or, Bool.or_eq_false_iff] at hf
          have hrest := fun name hname =>
            hfired name (List.mem_append_right [fired.1.name] hname)
          have hparts := h.reduceParts fired.2 hf.1
            fun name hname => hrest name (List.mem_append_left _ hname)
          cases limit' with
          | zero => cases hlimit
          | succ limit' =>
              rw [settle_succ hfirst', hparts, ih (Nat.le_of_succ_le_succ hlimit) _ hf.2
                fun name hname => hrest name (List.mem_append_right _ hname)]

end Matches

theorem matches_reduceWithin {admits : String → Prop} {rules rules' : List Rule}
    (hrules : FiresAlike admits rules rules') (hlength : rules.length ≤ rules'.length)
    {maxPasses maxPasses' : Nat} (hpasses : maxPasses ≤ maxPasses') (depth : Nat) :
    Matches admits (reduceWithin maxPasses rules depth) (reduceWithin maxPasses' rules' depth) := by
  induction depth with
  | zero =>
      intro f hf
      cases hf
  | succ depth ih =>
      intro f hf hfired
      unfold reduceWithin at hf hfired ⊢
      simp only [Outcome.exhausted_andThen, Bool.or_eq_false_iff] at hf hfired ⊢
      rw [ih.reduceParts f hf.1 fun name hname => hfired name (List.mem_append_left _ hname)]
      have hlimit : ∀ size, firingLimit maxPasses rules size ≤ firingLimit maxPasses' rules' size :=
        fun size => Nat.mul_le_mul_right size (Nat.mul_le_mul hpasses hlength)
      rw [ih.settle hrules (hlimit _) _ hf.2
        fun name hname => hfired name (List.mem_append_right _ hname)]

theorem matches_pass {admits : String → Prop} {rules rules' : List Rule}
    (hrules : FiresAlike admits rules rules') (hlength : rules.length ≤ rules'.length)
    {maxPasses maxPasses' : Nat} (hpasses : maxPasses ≤ maxPasses') :
    Matches admits (pass maxPasses rules) (pass maxPasses' rules') :=
  fun f => matches_reduceWithin hrules hlength hpasses f.weight f

theorem pass_eq_pass (s : Strategy) {maxPasses maxPasses' : Nat} (hpasses : 1 ≤ maxPasses)
    (hpasses' : 1 ≤ maxPasses') {f : Formula} (hf : f.IsValid) :
    pass maxPasses s.rules f = pass maxPasses' s.rules f := by
  have hsame : FiresAlike (fun _ => True) s.rules s.rules := fun _ _ => rfl
  have hraised : ∀ {m n : Nat}, 1 ≤ m → m ≤ n → pass n s.rules f = pass m s.rules f := fun hm hle =>
    matches_pass hsame (Nat.le_refl _) hle f (isComplete_pass s hm hf).exhausted
      fun _ _ => trivial
  rcases Nat.le_total maxPasses maxPasses' with hle | hle
  · exact (hraised hpasses hle).symm
  · exact hraised hpasses' hle

/-!
## The series of passes

Passes that match make the same series, as long as none of them is cut short.  A pass
over a formula that is not normal cannot return it, so a second one has to confirm the
outcome.
-/

theorem Matches.runPasses {admits : String → Prop} {makePass makePass' : Formula → Outcome}
    (h : Matches admits makePass makePass')
    (hends : ∀ f, f.IsValid → (makePass f).formula.IsValid ∧ (makePass f).exhausted = false)
    (remaining : Nat) {f : Formula} (hf : f.IsValid)
    (hfired : ∀ name ∈ (runPasses makePass remaining f).fired, admits name) :
    runPasses makePass' remaining f = runPasses makePass remaining f := by
  induction remaining generalizing f with
  | zero => rfl
  | succ remaining ih =>
      rcases hends f hf with ⟨hvalid, hexhausted⟩
      unfold Simplification.runPasses at hfired ⊢
      by_cases hstable : (makePass f).formula = f ∧ (makePass f).exhausted = false
      · simp only [if_pos hstable] at hfired ⊢
        rw [h f hexhausted hfired, if_pos hstable]
      · simp only [if_neg hstable] at hfired ⊢
        rw [h f hexhausted fun name hname => hfired name (List.mem_append_left _ hname),
          if_neg hstable, ih hvalid fun name hname => hfired name (List.mem_append_right _ hname)]

theorem runPasses_of_isNormal {rules : List Rule} {f : Formula} (h : f.IsNormal rules)
    (maxPasses : Nat) {remaining : Nat} (hremaining : 1 ≤ remaining) :
    runPasses (pass maxPasses rules) remaining f = ⟨f, 1, [], true⟩ := by
  cases remaining with
  | zero => cases hremaining
  | succ remaining =>
      unfold runPasses
      simp [pass_eq_unchanged h, Outcome.unchanged]

theorem runPasses_of_not_isNormal (s : Strategy) {maxPasses : Nat} (hpasses : 1 ≤ maxPasses)
    {f : Formula} (hf : f.IsValid) (h : ¬ f.IsNormal s.rules) {remaining : Nat}
    (hremaining : 1 ≤ remaining) :
    runPasses (pass maxPasses s.rules) remaining f =
      ⟨(pass maxPasses s.rules f).formula, min 2 remaining,
        (pass maxPasses s.rules f).fired, decide (2 ≤ remaining)⟩ := by
  have hnormal := (isComplete_pass s hpasses hf).normal
  have hne : (pass maxPasses s.rules f).formula ≠ f := by
    intro heq
    rw [heq] at hnormal
    exact h hnormal
  match remaining with
  | 1 => simp [runPasses, hne]
  | remaining + 2 =>
      rw [runPasses]
      simp only [hne, false_and, ↓reduceIte,
        runPasses_of_isNormal hnormal maxPasses (Nat.succ_pos remaining)]
      simp

end Simplification

namespace Simplifier

open Simplification

theorem isValid_run (s : Simplifier) {f : Formula} (hf : f.IsValid) : (s.run f).1.IsValid :=
  ((respects_weight s.strategy).run f hf).1

section

variable (s : Simplifier) {f : Formula} (hpasses : 1 ≤ s.maxPasses)

include hpasses

theorem run_of_isNormal (h : f.IsNormal s.strategy.rules) :
    (s.run f).1 = f ∧ (s.run f).2.passes = 1 ∧ (s.run f).2.firings = 0 ∧
      (s.run f).2.converged = true := by
  simp [run, runPasses_of_isNormal h s.maxPasses hpasses]

theorem run_of_not_isNormal (hf : f.IsValid) (h : ¬ f.IsNormal s.strategy.rules) :
    (s.run f).1 = (pass s.maxPasses s.strategy.rules f).formula ∧
      (s.run f).2.passes = min 2 s.maxPasses ∧
        (s.run f).2.converged = decide (2 ≤ s.maxPasses) := by
  simp [run, runPasses_of_not_isNormal s.strategy hpasses hf h hpasses]

theorem formula_run_eq_pass (hf : f.IsValid) :
    (s.run f).1 = (pass s.maxPasses s.strategy.rules f).formula := by
  by_cases h : f.IsNormal s.strategy.rules
  · rw [(s.run_of_isNormal hpasses h).1, pass_eq_unchanged h]
    rfl
  · exact (s.run_of_not_isNormal hpasses hf h).1

theorem isNormal_run (hf : f.IsValid) : (s.run f).1.IsNormal s.strategy.rules := by
  rw [s.formula_run_eq_pass hpasses hf]
  exact (isComplete_pass s.strategy hpasses hf).normal

/-- No rule of the strategy applies at any node of the result, and running again
returns the result after one pass without a firing. -/
theorem run_idempotent (hf : f.IsValid) :
    (∀ g, g.OccursIn (s.run f).1 → ∀ rule ∈ s.strategy.rules, rule.apply g = none) ∧
      (s.run (s.run f).1).1 = (s.run f).1 ∧ (s.run (s.run f).1).2.passes = 1 ∧
        (s.run (s.run f).1).2.firings = 0 ∧ (s.run (s.run f).1).2.converged = true := by
  have hnormal := s.isNormal_run hpasses hf
  exact ⟨hnormal, s.run_of_isNormal hpasses hnormal⟩

end

theorem run_idempotent_not_and :
    (Formula.not (.junction .and [.literal "p" false, .next (.literal "q" false)])).IsValid ∧
      1 ≤ (Simplifier.mk .aggressive 3).maxPasses ∧
      (run ⟨.aggressive, 3⟩ (run ⟨.aggressive, 3⟩
          (.not (.junction .and [.literal "p" false, .next (.literal "q" false)]))).1).1 =
        (run ⟨.aggressive, 3⟩
          (.not (.junction .and [.literal "p" false, .next (.literal "q" false)]))).1 := by
  have hf : (Formula.not (.junction .and
      [.literal "p" false, .next (.literal "q" false)])).IsValid := rfl
  exact ⟨hf, by decide, (run_idempotent ⟨.aggressive, 3⟩ (by decide) hf).2.1⟩

/-- What the limit of passes decides, and what it does not. -/
theorem run_maxPasses (strategy : Strategy) {f : Formula} (hf : f.IsValid) :
    (∀ n, 1 ≤ n →
      (run ⟨strategy, n⟩ f).1 = (run ⟨strategy, 1⟩ f).1 ∧
      (f.IsNormal strategy.rules →
        (run ⟨strategy, n⟩ f).2.passes = 1 ∧ (run ⟨strategy, n⟩ f).2.converged = true) ∧
      (¬ f.IsNormal strategy.rules →
        (run ⟨strategy, n⟩ f).2.passes = min 2 n ∧
        ((run ⟨strategy, n⟩ f).2.converged = true ↔ 2 ≤ n))) ∧
    (run ⟨strategy, 0⟩ f).1 = f ∧ (run ⟨strategy, 0⟩ f).2.passes = 0 ∧
      (run ⟨strategy, 0⟩ f).2.firings = 0 ∧ (run ⟨strategy, 0⟩ f).2.converged = false := by
  constructor
  · intro n hn
    have hsame : (run ⟨strategy, n⟩ f).1 = (run ⟨strategy, 1⟩ f).1 := by
      rw [formula_run_eq_pass ⟨strategy, n⟩ hn hf,
        formula_run_eq_pass ⟨strategy, 1⟩ (Nat.le_refl 1) hf]
      show (pass n strategy.rules f).formula = (pass 1 strategy.rules f).formula
      rw [pass_eq_pass strategy hn (Nat.le_refl 1) hf]
    refine ⟨hsame, ?_, ?_⟩
    · intro hnormal
      rcases run_of_isNormal ⟨strategy, n⟩ hn hnormal with ⟨_, hpasses, _, hconverged⟩
      exact ⟨hpasses, hconverged⟩
    · intro hnormal
      rcases run_of_not_isNormal ⟨strategy, n⟩ hn hf hnormal with ⟨_, hpasses, hconverged⟩
      exact ⟨hpasses, by rw [hconverged, decide_eq_true_iff]⟩
  · exact ⟨rfl, rfl, rfl, rfl⟩

theorem run_maxPasses_not_next :
    (Formula.not (.next (.literal "p" false))).IsValid ∧
      (run ⟨.modal, 5⟩ (.not (.next (.literal "p" false)))).1 =
        (run ⟨.modal, 1⟩ (.not (.next (.literal "p" false)))).1 ∧
      (run ⟨.modal, 0⟩ (.not (.next (.literal "p" false)))).1 =
        .not (.next (.literal "p" false)) := by
  have h := run_maxPasses .modal (f := .not (.next (.literal "p" false))) rfl
  exact ⟨rfl, (h.1 5 (by decide)).1, h.2.1⟩

end Simplifier

end LinearTemporal

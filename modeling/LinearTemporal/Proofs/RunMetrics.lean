import Mathlib.Algebra.BigOperators.Group.List.Lemmas
import Mathlib.Algebra.Order.Ring.Nat
import LinearTemporal.Proofs.PassLimit

/-!
# What a simplification reports

The counts that a simplifier reports account for what it did.  A reduction names only rules that
it was given, and where it names none it returns its formula as it was; both are kept when
reductions follow each other and when the parts of a formula are reduced, so they hold of a whole
run.  Conversely a run that did fire ends in a normal formula, and it would not have fired on one,
so it cannot end where it began.
-/

namespace LinearTemporal

open Formula

namespace OrderedMap

/-!
## The entries of a tally

They add up to the length of the list.
-/

variable {κ : Type} [Ord κ] [Std.TransOrd κ] [Std.LawfulEqOrd κ] [DecidableEq κ]

theorem snd_eq_count_of_mem_tally {keys : List κ} {entry : κ × Nat}
    (h : entry ∈ (tally keys).entries) : entry.2 = keys.count entry.1 := by
  rw [← getD_tally, getD, get?_of_mem h]
  rfl

theorem fst_mem_of_mem_tally {keys : List κ} {entry : κ × Nat}
    (h : entry ∈ (tally keys).entries) : entry.1 ∈ keys :=
  mem_keys_tally.mp (List.mem_map_of_mem h)

theorem sum_tally (keys : List κ) : ((tally keys).entries.map Prod.snd).sum = keys.length := by
  have hcounts : (tally keys).entries.map Prod.snd = (tally keys).keys.map keys.count := by
    rw [OrderedMap.keys, List.map_map]
    exact List.map_congr_left fun entry hentry => snd_eq_count_of_mem_tally hentry
  have hperm : (tally keys).keys.Perm keys.dedup := by
    apply (List.perm_ext_iff_of_nodup (tally keys).ascending.nodup keys.nodup_dedup).mpr
    intro key
    exact mem_keys_tally.trans List.mem_dedup.symm
  rw [hcounts, (hperm.map keys.count).sum_eq]
  exact List.sum_map_count_dedup_eq_length keys

end OrderedMap

namespace Simplification

/-!
## Reductions that account for what they did

The rules with the given names lead from one formula to the other, which is the same
formula if there are none.
-/

/-- Rules of the list with the given names lead from one formula to the other, which is the same
formula if there are none. -/
structure Accounts (rules : List Rule) (f g : Formula) (fired : List String) : Prop where
  names : ∀ name ∈ fired, name ∈ rules.map Rule.name
  unchanged : fired = [] → g = f

namespace Accounts

variable {rules : List Rule} {f g h : Formula} {fired fired' : List String}

theorem refl (f : Formula) : Accounts rules f f [] where
  names := nofun
  unchanged _ := rfl

theorem single {rule : Rule} (hrule : rule ∈ rules) : Accounts rules f g [rule.name] where
  names := List.forall_mem_singleton.mpr (List.mem_map_of_mem hrule)
  unchanged := nofun

theorem trans (hfg : Accounts rules f g fired) (hgh : Accounts rules g h fired') :
    Accounts rules f h (fired ++ fired') where
  names := List.forall_mem_append.mpr ⟨hfg.names, hgh.names⟩
  unchanged := by
    intro hnone
    rcases List.append_eq_nil_iff.mp hnone with ⟨hfired, hfired'⟩
    exact (hgh.unchanged hfired').trans (hfg.unchanged hfired)

end Accounts

section

variable {rules : List Rule} {reduce : Formula → Outcome}
  (hreduce : ∀ f, Accounts rules f (reduce f).formula (reduce f).fired)

include hreduce

theorem accounts_reduceParts (f : Formula) :
    Accounts rules f (reduceParts reduce f).formula (reduceParts reduce f).fired where
  names := by
    intro name hname
    rcases List.mem_flatMap.mp hname with ⟨outcome, houtcome, hname⟩
    rcases List.mem_map.mp houtcome with ⟨g, _, rfl⟩
    exact (hreduce g).names name hname
  unchanged := by
    intro hnone
    rw [formula_reduceParts]
    apply mapChildren_of_map_eq
    refine (List.map_congr_left fun g hg => ?_).trans (List.map_id f.children)
    exact (hreduce g).unchanged (List.flatMap_eq_nil_iff.mp hnone _ (List.mem_map_of_mem hg))

theorem accounts_settle (limit : Nat) (f : Formula) :
    Accounts rules f (settle rules reduce limit f).formula (settle rules reduce limit f).fired := by
  induction limit generalizing f with
  | zero =>
      cases hfirst : Rule.firstApplicable f rules with
      | none =>
          rw [settle_eq_unchanged hfirst]
          exact Accounts.refl f
      | some fired =>
          rw [settle_zero hfirst]
          exact Accounts.refl f
  | succ limit ih =>
      cases hfirst : Rule.firstApplicable f rules with
      | none =>
          rw [settle_eq_unchanged hfirst]
          exact Accounts.refl f
      | some fired =>
          have hrule := (Rule.mem_and_apply_of_firstApplicable hfirst).1
          rw [settle_succ hfirst]
          exact (Accounts.single hrule).trans ((accounts_reduceParts hreduce fired.2).trans (ih _))

theorem accounts_runPasses (remaining : Nat) (f : Formula) :
    Accounts rules f (runPasses reduce remaining f).formula
      (runPasses reduce remaining f).fired := by
  induction remaining generalizing f with
  | zero => exact Accounts.refl f
  | succ remaining ih =>
      simp only [runPasses]
      split
      · exact ⟨(hreduce f).names, fun _ => rfl⟩
      · exact (hreduce f).trans (ih _)

end

theorem accounts_reduceWithin (maxPasses : Nat) (rules : List Rule) (depth : Nat) (f : Formula) :
    Accounts rules f (reduceWithin maxPasses rules depth f).formula
      (reduceWithin maxPasses rules depth f).fired := by
  induction depth generalizing f with
  | zero => exact Accounts.refl f
  | succ depth ih => exact (accounts_reduceParts ih f).trans (accounts_settle ih _ _)

theorem passes_runPasses_le (makePass : Formula → Outcome) (remaining : Nat) (f : Formula) :
    (runPasses makePass remaining f).passes ≤ remaining := by
  induction remaining generalizing f with
  | zero => exact Nat.le_refl 0
  | succ remaining ih =>
      simp only [runPasses]
      split
      · exact Nat.succ_le_succ (Nat.zero_le remaining)
      · exact Nat.succ_le_succ (ih _)

end Simplification

namespace Simplifier

open Simplification

/-!
## Metrics of a run

A run that did fire ends in a normal formula, and it would not have fired on one, so it
cannot end where it began.
-/

variable (s : Simplifier)

theorem accounts_run (f : Formula) :
    Accounts s.strategy.rules f (s.run f).1
      (runPasses (pass s.maxPasses s.strategy.rules) s.maxPasses f).fired :=
  accounts_runPasses (fun g => accounts_reduceWithin s.maxPasses s.strategy.rules g.weight g)
    s.maxPasses f

theorem firings_eq_zero_iff {f : Formula} (hf : f.IsValid) :
    (s.run f).2.firings = 0 ↔ (s.run f).1 = f := by
  constructor
  · intro hfirings
    exact (s.accounts_run f).unchanged (List.length_eq_zero_iff.mp hfirings)
  · intro hsame
    rcases Nat.eq_zero_or_pos s.maxPasses with hzero | hpasses
    · rcases s with ⟨strategy, maxPasses⟩
      cases hzero
      rfl
    · -- What a run ends in is normal, so nothing fires on a formula that is its own result.
      have hnormal := s.isNormal_run hpasses hf
      rw [hsame] at hnormal
      exact (s.run_of_isNormal hpasses hnormal).2.2.1

/-- The reported counts account for the run: firings are counted by rule, for rules of the strategy
that did fire, the passes stay within the limit, the sizes are those of the two formulas, and
nothing fired exactly if nothing changed. -/
theorem run_accounts {f : Formula} (hf : f.IsValid) :
    (s.run f).2.firings = ((s.run f).2.ruleCounts.entries.map Prod.snd).sum ∧
    (∀ entry ∈ (s.run f).2.ruleCounts.entries,
      entry.1 ∈ s.strategy.rules.map Rule.name ∧ 1 ≤ entry.2) ∧
    (s.run f).2.passes ≤ s.maxPasses ∧
    (s.run f).2.initialSize = f.size ∧ (s.run f).2.finalSize = (s.run f).1.size ∧
    ((s.run f).2.firings = 0 ↔ (s.run f).1 = f) := by
  refine ⟨(OrderedMap.sum_tally _).symm, ?_, passes_runPasses_le _ _ f, rfl, rfl,
    s.firings_eq_zero_iff hf⟩
  intro entry hentry
  have hfired := OrderedMap.fst_mem_of_mem_tally hentry
  constructor
  · exact (s.accounts_run f).names entry.1 hfired
  · rw [OrderedMap.snd_eq_count_of_mem_tally hentry]
    exact List.count_pos_iff.mpr hfired

theorem run_accounts_not_and :
    let f : Formula := .not (.junction .and [.literal "p" false, .not (.literal "q" false),
      .next (.always (.always (.literal "q" false)))])
    let outcome := run ⟨.modal, 3⟩ f
    f.IsValid ∧
    outcome.2.ruleCounts.entries =
      [("negate_leaf", 1), ("push_negation", 3), ("temporal_idempotence", 1)] ∧
    outcome.2.firings = 5 ∧ outcome.2.passes ≤ 3 ∧ outcome.1 ≠ f := by
  intro f outcome
  have hf : f.IsValid := rfl
  have hcounts : outcome.2.ruleCounts.entries =
      [("negate_leaf", 1), ("push_negation", 3), ("temporal_idempotence", 1)] := by
    decide +kernel
  rcases run_accounts ⟨.modal, 3⟩ hf with ⟨hsum, _, hpasses, _, _, hzero⟩
  have hfirings : outcome.2.firings = 5 := by
    rw [hsum, hcounts]
    rfl
  refine ⟨hf, hcounts, hfirings, hpasses, fun hsame => ?_⟩
  have hnone : outcome.2.firings = 0 := hzero.mpr hsame
  rw [hfirings] at hnone
  cases hnone

end Simplifier
end LinearTemporal

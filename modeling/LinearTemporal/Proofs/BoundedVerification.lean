import LinearTemporal.Proofs.BoundedWords
import LinearTemporal.Proofs.Extents
import LinearTemporal.Verification

/-!
# Verifying a simplification

A simplification brings in no name and changes the truth value nowhere.  So when the
original and the result are compared on all words of the bounded set, the names are those of
the original, no word tells the two apart, and the verification succeeds unless the original
has too many names.  How many words there are follows from how they are enumerated.
-/

namespace LinearTemporal

/-!
## How many words there are

One for each bounded lasso and each assignment of values to the variables.
-/

theorem Lasso.length_bounded (names : List String) (maxStem : Nat) {maxCycle : Nat}
    (hcycle : 1 ≤ maxCycle) :
    (bounded names maxStem maxCycle).length =
      ∑ stem ∈ Finset.range (maxStem + 1), ∑ cycle ∈ Finset.Icc 1 maxCycle,
        (2 ^ names.length) ^ (stem + cycle) := by
  rw [length_bounded_max, Nat.max_eq_left hcycle]

namespace Verification

theorem length_assignments (values : List Int64) (names : List String) :
    (assignments values names).length = values.length ^ names.length := by
  induction names with
  | nil => rfl
  | cons name names ih =>
      rw [assignments, List.length_flatMap, List.length_cons, Nat.pow_succ', ← ih]
      simp

theorem length_words (propositions integerVariables : List String) :
    (words propositions integerVariables).length =
      5 ^ integerVariables.length *
        (Lasso.bounded propositions 1 (cycleBound propositions.length)).length := by
  rw [words, List.length_flatMap, show 5 = variableValues.length from rfl, ← length_assignments]
  simp

/-!
## Equivalent formulas

No word tells them apart, so only the limits can make the verification fail.
-/

theorem findDisagreement_eq_none {f g : Formula} (h : f.Equivalent g) (words : List Lasso) :
    Lasso.findDisagreement f g words = none := by
  apply List.find?_eq_none.mpr
  intro w _
  have hsame : w.satisfies f = w.satisfies g := h.holdsAt_eq w 0
  simp [Lasso.distinguishes, hsame]

section

variable {before after : Formula}
  (hpropositions : before.propositions.union after.propositions = before.propositions)
  (hvariables : before.integerVariables.union after.integerVariables = before.integerVariables)

include hpropositions

theorem verify_tooManyPropositions (h : maxPropositions < before.propositions.size) :
    verify before after = .error (.tooManyPropositions before.propositions.size) := by
  simp only [verify, hpropositions, h, ↓reduceIte]

include hvariables

theorem verify_tooManyVariables (hnames : before.propositions.size ≤ maxPropositions)
    (h : maxVariables < before.integerVariables.size) :
    verify before after = .error (.tooManyVariables before.integerVariables.size) := by
  simp only [verify, hpropositions, hvariables, Nat.not_lt.mpr hnames, h, ↓reduceIte]

theorem verify_equivalent (hnames : before.propositions.size ≤ maxPropositions)
    (hvalues : before.integerVariables.size ≤ maxVariables) (hequivalent : before.Equivalent after) :
    verify before after =
      .ok (words before.propositions.toList before.integerVariables.toList).length := by
  simp only [verify, hpropositions, hvariables, Nat.not_lt.mpr hnames, Nat.not_lt.mpr hvalues,
    findDisagreement_eq_none hequivalent, ↓reduceIte]

end

end Verification

namespace Simplifier

open Formula Verification

section

variable (s : Simplifier) {f : Formula} (hf : f.IsValid)

include hf

theorem propositions_run_subset :
    ∀ name ∈ (s.run f).1.propositions.toList, name ∈ f.propositions.toList := by
  intro name hname
  rw [mem_propositions] at hname ⊢
  exact s.propositionNames_run_subset hf hname

theorem integerVariables_run_subset :
    ∀ name ∈ (s.run f).1.integerVariables.toList, name ∈ f.integerVariables.toList := by
  intro name hname
  rw [mem_integerVariables] at hname ⊢
  exact s.variableNames_run_subset hf hname

/-- Verification accepts a simplification on all words of the bounded set, unless the formula
has more names than it supports. -/
theorem verify_run :
    (∀ name ∈ (s.run f).1.propositions.toList, name ∈ f.propositions.toList) ∧
    (∀ name ∈ (s.run f).1.integerVariables.toList, name ∈ f.integerVariables.toList) ∧
    (f.propositions.size ≤ 6 → f.integerVariables.size ≤ 2 →
      verify f (s.run f).1 =
        .ok (5 ^ f.integerVariables.size *
          ∑ stem ∈ Finset.range 2,
            ∑ cycle ∈ Finset.Icc 1 (if f.propositions.size ≤ 3 then 2 else 1),
              (2 ^ f.propositions.size) ^ (stem + cycle))) ∧
    (6 < f.propositions.size →
      verify f (s.run f).1 = .error (.tooManyPropositions f.propositions.size)) ∧
    (f.propositions.size ≤ 6 → 2 < f.integerVariables.size →
      verify f (s.run f).1 = .error (.tooManyVariables f.integerVariables.size)) := by
  have hpropositions := OrderedSet.union_eq_left (s.propositions_run_subset hf)
  have hvariables := OrderedSet.union_eq_left (s.integerVariables_run_subset hf)
  refine ⟨s.propositions_run_subset hf, s.integerVariables_run_subset hf, ?_,
    verify_tooManyPropositions hpropositions, verify_tooManyVariables hpropositions hvariables⟩
  intro hnames hvalues
  have hcycle : 1 ≤ cycleBound f.propositions.size := by
    unfold cycleBound
    split
    · exact Nat.le_succ 1
    · exact Nat.le_refl 1
  have hwords : (Lasso.bounded f.propositions.toList 1 (cycleBound f.propositions.size)).length =
      _ := Lasso.length_bounded f.propositions.toList 1 hcycle
  rw [verify_equivalent hpropositions hvariables hnames hvalues (s.equivalent_run f),
    length_words]
  exact congrArg (fun count => Except.ok (5 ^ f.integerVariables.size * count)) hwords

end

theorem verify_run_until :
    let f : Formula := .not (.untl (.always (.literal "p" false))
      (.junction .and [.literal "q" true, .atom (.var "x") .lt (.int 1)]))
    f.IsValid ∧ f.propositions.size ≤ 6 ∧ f.integerVariables.size ≤ 2 ∧
      verify f (run ⟨.aggressive, 64⟩ f).1 = .ok (5 * (4 + 4 ^ 2 + (4 ^ 2 + 4 ^ 3))) := by
  intro f
  have hf : f.IsValid := rfl
  have hnames : f.propositions.size ≤ 6 := by decide
  have hvalues : f.integerVariables.size ≤ 2 := by decide
  exact ⟨hf, hnames, hvalues, (verify_run ⟨.aggressive, 64⟩ hf).2.2.1 hnames hvalues⟩

end Simplifier

end LinearTemporal

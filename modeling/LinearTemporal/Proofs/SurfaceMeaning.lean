import Mathlib.Data.Nat.Find
import LinearTemporal.Proofs.Equivalence
import LinearTemporal.Surface.Tree

/-!
# The meaning of surface trees

When a surface tree holds at a position of an infinite word, each of its operators taken
at its word: weak until, strong release, implication and equivalence have meanings of
their own here.  The main statement says that the formula of a tree means what the tree
means, however the operators are nested.
-/

namespace LinearTemporal
namespace Surface

open Formula

namespace Tree

/-!
## The definition

Each operator has a clause of its own, which says nothing about other operators.
-/

mutual

/-- The tree holds at a position of a word. -/
def Holds (word : Nat → State) : Tree → Nat → Prop
  | constant value, _ => value = true
  | proposition name, i => (word i).holds name = true
  | atom left op right, i =>
      op.holds (left.evaluate (word i).value) (right.evaluate (word i).value) = true
  | not body, i => ¬ Holds word body i
  | modal .next body, i => Holds word body (i + 1)
  | modal .always body, i => ∀ j, i ≤ j → Holds word body j
  | modal .eventually body, i => ∃ j, i ≤ j ∧ Holds word body j
  | temporal .untl left right, i =>
      ∃ k, i ≤ k ∧ Holds word right k ∧ ∀ j, i ≤ j → j < k → Holds word left j
  | temporal .release left right, i =>
      ∀ k, i ≤ k → Holds word right k ∨ ∃ j, i ≤ j ∧ j < k ∧ Holds word left j
  | temporal .weakUntil left right, i =>
      (∃ k, i ≤ k ∧ Holds word right k ∧ ∀ j, i ≤ j → j < k → Holds word left j) ∨
        ∀ j, i ≤ j → Holds word left j
  | temporal .strongRelease left right, i =>
      ∃ k, i ≤ k ∧ Holds word left k ∧ Holds word right k ∧
        ∀ j, i ≤ j → j ≤ k → Holds word right j
  | chain .and operands, i => HoldAll word operands i
  | chain .or operands, i => HoldsAny word operands i
  | implies premise conclusion, i => ¬ Holds word premise i ∨ Holds word conclusion i
  | iff left right, i => (Holds word left i ↔ Holds word right i)

def HoldAll (word : Nat → State) : List Tree → Nat → Prop
  | [], _ => True
  | t :: ts, i => Holds word t i ∧ HoldAll word ts i

def HoldsAny (word : Nat → State) : List Tree → Nat → Prop
  | [], _ => False
  | t :: ts, i => Holds word t i ∨ HoldsAny word ts i

end

end Tree

/-!
## The formulas of single operators

Either both sides of an equivalence hold in the first conjunction or both negations in
the second.  For weak until and strong release the first position counts where the right
side holds, if there is one.
-/

variable {word : Nat → State} {i : Nat}

theorem holds_negate {f : Formula} : (negate f).Holds word i ↔ ¬ f.Holds word i := by
  unfold negate
  split
  · rw [holds_literal, holds_literal]
    simp
  · exact holds_not

theorem holds_implication {premise conclusion : Formula} :
    (implication premise conclusion).Holds word i ↔
      ¬ premise.Holds word i ∨ conclusion.Holds word i := by
  unfold implication
  rw [holds_disj, ← holds_negate]
  simp

theorem holds_equivalence {left right : Formula} :
    (equivalence left right).Holds word i ↔ (left.Holds word i ↔ right.Holds word i) := by
  unfold equivalence
  simp only [holds_disj, List.mem_cons, List.not_mem_nil, or_false, exists_eq_or_imp,
    exists_eq_left, holds_conj, forall_eq_or_imp, forall_eq, holds_negate]
  exact iff_iff_and_or_not_and_not.symm

theorem exists_first {q : Nat → Prop} (h : ∃ k, i ≤ k ∧ q k) :
    ∃ k, i ≤ k ∧ q k ∧ ∀ j, i ≤ j → j < k → ¬ q j := by
  classical
  refine ⟨Nat.find h, (Nat.find_spec h).1, (Nat.find_spec h).2, ?_⟩
  intro j hij hj hq
  exact Nat.find_min h hj ⟨hij, hq⟩

theorem release_or_iff {p q : Nat → Prop} :
    (∀ k, i ≤ k → (p k ∨ q k) ∨ ∃ j, i ≤ j ∧ j < k ∧ q j) ↔
      (∃ k, i ≤ k ∧ q k ∧ ∀ j, i ≤ j → j < k → p j) ∨ ∀ j, i ≤ j → p j := by
  constructor
  · intro h
    by_cases hq : ∃ k, i ≤ k ∧ q k
    · rcases exists_first hq with ⟨k, hik, hk, hbefore⟩
      refine Or.inl ⟨k, hik, hk, ?_⟩
      intro j hij hjk
      rcases h j hij with (hp | hj) | ⟨j', hij', hj'j, hj'⟩
      · exact hp
      · exact absurd hj (hbefore j hij hjk)
      · exact absurd hj' (hbefore j' hij' (Nat.lt_trans hj'j hjk))
    · apply Or.inr
      intro j hij
      rcases h j hij with (hp | hj) | ⟨j', hij', _, hj'⟩
      · exact hp
      · exact absurd ⟨j, hij, hj⟩ hq
      · exact absurd ⟨j', hij', hj'⟩ hq
  · intro h k hik
    rcases h with ⟨end', hend, hq, hbefore⟩ | halways
    · rcases Nat.lt_trichotomy k end' with hlt | rfl | hgt
      · exact Or.inl (Or.inl (hbefore k hik hlt))
      · exact Or.inl (Or.inr hq)
      · exact Or.inr ⟨end', hend, hgt, hq⟩
    · exact Or.inl (Or.inl (halways k hik))

theorem holds_weakUntil {left right : Formula} :
    (TemporalOperator.weakUntil.apply left right).Holds word i ↔
      (∃ k, i ≤ k ∧ right.Holds word k ∧ ∀ j, i ≤ j → j < k → left.Holds word j) ∨
        ∀ j, i ≤ j → left.Holds word j := by
  rw [← release_or_iff]
  show (release right (disj [left, right])).Holds word i ↔ _
  simp [holds_release, holds_disj]

theorem holds_strongRelease {left right : Formula} :
    (TemporalOperator.strongRelease.apply left right).Holds word i ↔
      ∃ k, i ≤ k ∧ left.Holds word k ∧ right.Holds word k ∧
        ∀ j, i ≤ j → j ≤ k → right.Holds word j := by
  show (untl right (conj [left, right])).Holds word i ↔ _
  simp only [holds_untl, holds_conj, List.mem_cons, List.not_mem_nil, or_false,
    forall_eq_or_imp, forall_eq]
  constructor
  · intro hexists
    rcases hexists with ⟨k, hik, ⟨hleft, hright⟩, hbefore⟩
    refine ⟨k, hik, hleft, hright, ?_⟩
    intro j hij hjk
    rcases Nat.lt_or_eq_of_le hjk with hlt | rfl
    · exact hbefore j hij hlt
    · exact hright
  · intro hexists
    rcases hexists with ⟨k, hik, hleft, hright, hupTo⟩
    exact ⟨k, hik, ⟨hleft, hright⟩, fun j hij hjk => hupTo j hij (Nat.le_of_lt hjk)⟩

/-!
## All operators together

By induction over the tree.
-/

mutual

theorem holds_toFormula : ∀ (t : Tree) (i : Nat), t.toFormula.Holds word i ↔ t.Holds word i
  | .constant value, i => Iff.rfl
  | .proposition name, i => Iff.rfl
  | .atom left op right, i => Iff.rfl
  | .not body, i => holds_negate.trans (not_congr (holds_toFormula body i))
  | .modal .next body, i => holds_toFormula body (i + 1)
  | .modal .always body, i => forall₂_congr fun j _ => holds_toFormula body j
  | .modal .eventually body, i =>
      exists_congr fun j => and_congr_right fun _ => holds_toFormula body j
  | .temporal .untl left right, i => by
      show (untl left.toFormula right.toFormula).Holds word i ↔ _
      simp only [holds_untl, holds_toFormula left, holds_toFormula right, Tree.Holds]
  | .temporal .release left right, i => by
      show (release left.toFormula right.toFormula).Holds word i ↔ _
      simp only [holds_release, holds_toFormula left, holds_toFormula right, Tree.Holds]
  | .temporal .weakUntil left right, i => by
      rw [Tree.toFormula, holds_weakUntil]
      simp only [holds_toFormula left, holds_toFormula right, Tree.Holds]
  | .temporal .strongRelease left right, i => by
      rw [Tree.toFormula, holds_strongRelease]
      simp only [holds_toFormula left, holds_toFormula right, Tree.Holds]
  | .chain .and operands, i => holds_conj.trans (holdAll_toFormulas operands i)
  | .chain .or operands, i => holds_disj.trans (holdsAny_toFormulas operands i)
  | .implies premise conclusion, i => by
      rw [Tree.toFormula, holds_implication, holds_toFormula premise, holds_toFormula conclusion]
      rfl
  | .iff left right, i => by
      rw [Tree.toFormula, holds_equivalence, holds_toFormula left, holds_toFormula right]
      rfl

theorem holdAll_toFormulas : ∀ (ts : List Tree) (i : Nat),
    (∀ f ∈ Tree.toFormulas ts, f.Holds word i) ↔ Tree.HoldAll word ts i
  | [], i => by simp [Tree.toFormulas, Tree.HoldAll]
  | t :: ts, i => by
      simp only [Tree.toFormulas, Tree.HoldAll, List.mem_cons, forall_eq_or_imp,
        holds_toFormula t, holdAll_toFormulas ts]

theorem holdsAny_toFormulas : ∀ (ts : List Tree) (i : Nat),
    (∃ f ∈ Tree.toFormulas ts, f.Holds word i) ↔ Tree.HoldsAny word ts i
  | [], i => by simp [Tree.toFormulas, Tree.HoldsAny]
  | t :: ts, i => by
      simp only [Tree.toFormulas, Tree.HoldsAny, List.mem_cons, exists_eq_or_imp,
        holds_toFormula t, holdsAny_toFormulas ts]

end

end Surface

namespace Lasso

/-- The formula of a surface tree has, at every position of every lasso, the truth value
that the tree has there. -/
theorem holdsAt_toFormula (w : Lasso) (t : Surface.Tree) (i : Nat) :
    w.holdsAt t.toFormula i = true ↔ t.Holds w.word i := by
  unfold holdsAt
  rw [getD_evaluate _ (w.locate_lt i), ← Surface.holds_toFormula]
  exact (Formula.holds_congr_of_sameFrom _ (w.sameFrom_locate i)).symm

end Lasso
end LinearTemporal

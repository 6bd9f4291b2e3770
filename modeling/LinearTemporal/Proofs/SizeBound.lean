import LinearTemporal.Proofs.Extents
import LinearTemporal.Proofs.NegationNormal

/-!
# Simplification makes nothing bigger

A single firing can make a formula bigger: negation that is pushed into a junction comes to
stand before every operand.  What no law raises is the size without negations.  A strategy
that pushes negations leaves none in the result, so there the size of the result is its size
without negations, and the additions of the single firings are paid back.  The laws of the
other strategies add no node at all.
-/

namespace LinearTemporal

open Formula

namespace Formula

/-!
## The size without negations

Formulas without negations have the size that is counted here.
-/

theorem sizeAll_eq_sum (fs : List Formula) : sizeAll fs = (fs.map size).sum := by
  induction fs with
  | nil => rfl
  | cons f fs ih => rw [sizeAll, ih, List.map_cons, List.sum_cons]

theorem isMeasure_size : IsMeasure size where
  pos := size_pos
  const _ := by simp only [size]
  junction _ fs := by simp only [size, sizeAll_eq_sum]
  not h := by
    simp only [size]
    omega
  next h := by
    simp only [size]
    omega
  always h := by
    simp only [size]
    omega
  eventually h := by
    simp only [size]
    omega
  untl hl hr := by
    simp only [size]
    omega
  release hl hr := by
    simp only [size]
    omega

mutual

/-- Number of nodes that are no negations. -/
def unsignedSize : Formula → Nat
  | not body => body.unsignedSize
  | next body => body.unsignedSize + 1
  | always body => body.unsignedSize + 1
  | eventually body => body.unsignedSize + 1
  | untl left right => left.unsignedSize + right.unsignedSize + 1
  | release left right => left.unsignedSize + right.unsignedSize + 1
  | junction _ operands => unsignedSizeAll operands + 1
  | _ => 1

def unsignedSizeAll : List Formula → Nat
  | [] => 0
  | f :: fs => f.unsignedSize + unsignedSizeAll fs

end

theorem unsignedSizeAll_eq_sum (fs : List Formula) :
    unsignedSizeAll fs = (fs.map unsignedSize).sum := by
  induction fs with
  | nil => rfl
  | cons f fs ih => rw [unsignedSizeAll, ih, List.map_cons, List.sum_cons]

theorem isUnsigned_unsignedSize : IsUnsigned unsignedSize 1 where
  extra_pos := Nat.le_refl 1
  const _ := by simp only [unsignedSize]
  literal _ _ := by simp only [unsignedSize]
  atom _ _ _ := by simp only [unsignedSize]
  not _ := by simp only [unsignedSize]
  next _ := by simp only [unsignedSize]
  always _ := by simp only [unsignedSize]
  eventually _ := by simp only [unsignedSize]
  untl _ _ := by simp only [unsignedSize]
  release _ _ := by simp only [unsignedSize]
  junction _ fs := by simp only [unsignedSize, unsignedSizeAll_eq_sum]

theorem unsignedSize_le_size (f : Formula) : f.unsignedSize ≤ f.size := by
  induction f using induction_on_children with
  | step f ih =>
      cases f with
      | const | literal | atom => simp only [unsignedSize, size, Nat.le_refl]
      | not body | next body | always body | eventually body =>
          have hbody := ih body List.mem_cons_self
          simp only [unsignedSize, size]
          omega
      | untl left right | release left right =>
          have hleft := ih left List.mem_cons_self
          have hright := ih right (List.mem_cons_of_mem _ List.mem_cons_self)
          simp only [unsignedSize, size]
          omega
      | junction k fs =>
          rw [isUnsigned_unsignedSize.junction, isMeasure_size.junction]
          exact Nat.succ_le_succ (List.sum_le_sum ih)

theorem unsignedSize_eq_size {f : Formula} (h : f.IsNegationNormal) :
    f.unsignedSize = f.size := by
  induction f using induction_on_children with
  | step f ih =>
      have hparts : ∀ g ∈ f.children, g.unsignedSize = g.size :=
        fun g hg => ih g hg (h.children hg)
      cases f with
      | const | literal | atom => simp only [unsignedSize, size]
      | not body => exact absurd rfl (h.ne_not body)
      | next body | always body | eventually body =>
          simp only [unsignedSize, size, hparts body List.mem_cons_self]
      | untl left right | release left right =>
          simp only [unsignedSize, size, hparts left List.mem_cons_self,
            hparts right (List.mem_cons_of_mem _ List.mem_cons_self)]
      | junction k fs =>
          have hmap : fs.map unsignedSize = fs.map size := List.map_congr_left hparts
          rw [isUnsigned_unsignedSize.junction, isMeasure_size.junction, hmap]

end Formula

/-!
## Laws that add no node

The laws of the first group and those that move `next` add none one by one.
-/

namespace Rule

theorem PropositionalStep.size_le {f g : Formula} (h : PropositionalStep f g) :
    g.size ≤ f.size := by
  cases h with
  | negatedConst | negatedLiteral | negatedAtom | doubleNegation =>
      simp only [size]
      omega
  | absorbing hmem | complementary hmem => exact Nat.le_of_lt (isMeasure_size.one_lt_junction hmem)
  | neutral _ hneutral => exact Nat.le_of_lt (isMeasure_size.join_filter_lt hneutral rfl)

theorem NextStep.size_le {f g : Formula} (h : NextStep f g) (hf : f.IsValid) :
    g.size ≤ f.size := by
  cases h with
  | junction k bodies =>
      exact Nat.le_of_succ_le (isMeasure_size.next_join_add_le (fun _ => rfl) hf)
  | _ =>
      simp only [size]
      omega

end Rule

/-!
## What a run does to the size

Where negations are pushed none is left to be counted, and the other strategies add no
node in any firing.
-/

namespace Simplifier

open Simplification

theorem size_run_le_of_fire (s : Simplifier)
    (hfire : ∀ {rule f g}, rule ∈ s.strategy.rules → rule.transform f = some g → f.IsValid →
      g.size ≤ f.size) {f : Formula} (hf : f.IsValid) : (s.run f).1.size ≤ f.size :=
  ((respects_ofValid isMeasure_size.isCongruence (fun hfg hgh => Nat.le_trans hgh hfg)
    hfire).run f hf).2

theorem size_run_le_of_modal (s : Simplifier)
    (hs : s.strategy = .modal ∨ s.strategy = .aggressive) (hpasses : 1 ≤ s.maxPasses)
    {f : Formula} (hf : f.IsValid) : (s.run f).1.size ≤ f.size := by
  have hrespects := respects_measure isUnsigned_unsignedSize.isMeasure
    (fun h hf => h.unsigned_le isUnsigned_unsignedSize hf) s.strategy
  have hnormal := s.isNegationNormal_run hs hpasses hf
  calc (s.run f).1.size
      = (s.run f).1.unsignedSize := (unsignedSize_eq_size hnormal).symm
    _ ≤ f.unsignedSize := (hrespects.run f hf).2
    _ ≤ f.size := unsignedSize_le_size f

theorem size_run_le (s : Simplifier) {f : Formula} (hf : f.IsValid) :
    (s.run f).1.size ≤ f.size := by
  rcases s with ⟨strategy, maxPasses⟩
  cases maxPasses with
  | zero => exact Nat.le_refl _
  | succ n =>
      have hpasses : 1 ≤ n + 1 := Nat.succ_pos n
      cases strategy with
      | propositional =>
          apply size_run_le_of_fire _ _ hf
          intro rule f g hrule htransform _
          exact (Rule.PropositionalStep.of_mem hrule htransform).size_le
      | modal => exact size_run_le_of_modal ⟨.modal, n + 1⟩ (Or.inl rfl) hpasses hf
      | pullNext =>
          apply size_run_le_of_fire _ _ hf
          intro rule f g hrule htransform hf
          exact (Rule.NextStep.of_mem hrule htransform).size_le hf
      | aggressive => exact size_run_le_of_modal ⟨.aggressive, n + 1⟩ (Or.inr rfl) hpasses hf

/-- The result of a simplification has no more nodes and no deeper nesting of temporal
operators than the formula.  So the final size in the metrics is at most the initial one, and
the part of the size that is reported as gone is not negative. -/
theorem run_never_grows (s : Simplifier) {f : Formula} (hf : f.IsValid) :
    (s.run f).1.size ≤ f.size ∧ (s.run f).1.temporalDepth ≤ f.temporalDepth ∧
      (s.run f).2.finalSize ≤ (s.run f).2.initialSize :=
  ⟨s.size_run_le hf, s.temporalDepth_run_le hf, s.size_run_le hf⟩

theorem run_never_grows_not_and :
    let f : Formula := .not (.junction .and [.literal "p" false, .next (.literal "q" false)])
    f.IsValid ∧ (run ⟨.modal, 4⟩ f).1.size ≤ f.size ∧
      (run ⟨.modal, 4⟩ f).1.temporalDepth ≤ f.temporalDepth ∧
      (run ⟨.modal, 4⟩ f).2.finalSize ≤ (run ⟨.modal, 4⟩ f).2.initialSize := by
  intro f
  have hf : f.IsValid := rfl
  exact ⟨hf, run_never_grows ⟨.modal, 4⟩ hf⟩

end Simplifier

end LinearTemporal

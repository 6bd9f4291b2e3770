import LinearTemporal.Proofs.SizeBound

/-!
# The order in which rules descend

Every rule lowers three numbers in lexicographic order, with one exception: the negation
weight, which adds up the sizes of what is negated; the number of nodes; and the next depth,
which adds up for each `next` the number of nodes above it.  The exception is the merging of
two operands of a longer junction.  It trades a temporal operator for a connective, so that
negation weight and number of nodes stay, and what was merged comes to stand one node deeper.
It is for this law that the number of temporal operators has to be compared before the next
depth; with it in third place, all rules descend.
-/

namespace LinearTemporal
namespace Formula

/-!
## Adding up over all nodes

Each node is counted for a share that depends on the formula at this node.  The negation
weight adds up the sizes of all negated formulas, and the next depth the number of nodes
above each `next`.
-/

mutual

def total (share : Formula → Nat) : Formula → Nat
  | not body => share (not body) + body.total share
  | next body => share (next body) + body.total share
  | always body => share (always body) + body.total share
  | eventually body => share (eventually body) + body.total share
  | untl left right => share (untl left right) + (left.total share + right.total share)
  | release left right => share (release left right) + (left.total share + right.total share)
  | junction k operands => share (junction k operands) + totalAll share operands
  | f => share f

def totalAll (share : Formula → Nat) : List Formula → Nat
  | [] => 0
  | f :: fs => f.total share + totalAll share fs

end

def negationShare : Formula → Nat
  | not body => body.size
  | _ => 0

def negationWeight (f : Formula) : Nat :=
  f.total negationShare

def temporalShare : Formula → Nat
  | next _ => 1
  | always _ => 1
  | eventually _ => 1
  | untl .. => 1
  | release .. => 1
  | _ => 0

def temporalCount (f : Formula) : Nat :=
  f.total temporalShare

def nextShare : Formula → Nat
  | next _ => 1
  | _ => 0

def nextCount (f : Formula) : Nat :=
  f.total nextShare

mutual

/-- For each `next`, the number of nodes above it, where there are `depth` nodes above the
formula itself. -/
def nextDepthFrom (depth : Nat) : Formula → Nat
  | not body => body.nextDepthFrom (depth + 1)
  | next body => depth + body.nextDepthFrom (depth + 1)
  | always body => body.nextDepthFrom (depth + 1)
  | eventually body => body.nextDepthFrom (depth + 1)
  | untl left right => left.nextDepthFrom (depth + 1) + right.nextDepthFrom (depth + 1)
  | release left right => left.nextDepthFrom (depth + 1) + right.nextDepthFrom (depth + 1)
  | junction _ operands => nextDepthAllFrom (depth + 1) operands
  | _ => 0

def nextDepthAllFrom (depth : Nat) : List Formula → Nat
  | [] => 0
  | f :: fs => f.nextDepthFrom depth + nextDepthAllFrom depth fs

end

def nextDepth (f : Formula) : Nat :=
  f.nextDepthFrom 0

/-!
### Equations

Each `next` has all the nodes above it that the formula has, so below one more node
every `next` counts one more.
-/

theorem totalAll_eq_sum (share : Formula → Nat) (fs : List Formula) :
    totalAll share fs = (fs.map (total share)).sum := by
  induction fs with
  | nil => rfl
  | cons f fs ih => rw [totalAll, ih, List.map_cons, List.sum_cons]

theorem total_eq (share : Formula → Nat) (f : Formula) :
    f.total share = share f + (f.children.map (total share)).sum := by
  cases f with
  | junction k fs => exact congrArg _ (totalAll_eq_sum share fs)
  | _ => simp [total, children]

theorem nextDepthAllFrom_eq_sum (depth : Nat) (fs : List Formula) :
    nextDepthAllFrom depth fs = (fs.map (nextDepthFrom depth)).sum := by
  induction fs with
  | nil => rfl
  | cons f fs ih => rw [nextDepthAllFrom, ih, List.map_cons, List.sum_cons]

theorem nextDepthFrom_eq (depth : Nat) (f : Formula) :
    f.nextDepthFrom depth =
      depth * f.nextShare + (f.children.map (nextDepthFrom (depth + 1))).sum := by
  cases f with
  | junction k fs => simp [nextDepthFrom, nextShare, children, nextDepthAllFrom_eq_sum]
  | _ => simp [nextDepthFrom, nextShare, children]

theorem nextCount_eq (f : Formula) :
    f.nextCount = f.nextShare + (f.children.map nextCount).sum :=
  total_eq nextShare f

theorem nextDepthFrom_eq_add (depth : Nat) (f : Formula) :
    f.nextDepthFrom depth = f.nextDepth + depth * f.nextCount := by
  induction f using induction_on_children generalizing depth with
  | step f ih =>
      have hparts : ∀ d, (f.children.map (nextDepthFrom d)).sum =
          (f.children.map nextDepth).sum + d * (f.children.map nextCount).sum := by
        intro d
        rw [← List.sum_map_mul_left, ← List.sum_map_add]
        exact congrArg List.sum (List.map_congr_left fun g hg => ih g hg d)
      unfold nextDepth
      rw [nextDepthFrom_eq, nextDepthFrom_eq, nextCount_eq, hparts, hparts, Nat.mul_add,
        Nat.add_mul, Nat.add_mul]
      omega

theorem nextDepth_eq (f : Formula) :
    f.nextDepth = (f.children.map (fun g => g.nextDepth + g.nextCount)).sum := by
  unfold nextDepth
  rw [nextDepthFrom_eq, Nat.zero_mul, Nat.zero_add]
  exact congrArg List.sum (List.map_congr_left fun g _ => by
    rw [nextDepthFrom_eq_add, Nat.zero_add, Nat.one_mul]; rfl)

/-!
## Joining

Junctions and constants, which joining can put in or leave out, have no share.  Each
junction that is taken apart saves its node, and where nothing is taken apart or
dropped, joining only puts the operands in order.
-/

theorem sum_size_joinOperands_le (k : Connective) (fs : List Formula) :
    ((joinOperands k fs).map size).sum + fs.countP (isJunction k) ≤ (fs.map size).sum := by
  apply Nat.le_trans (Nat.add_le_add_right (Ascending.sum_map_ofList_le size _) _)
  induction fs with
  | nil => exact Nat.le_refl 0
  | cons f fs ih =>
      rw [List.flatMap_cons, List.map_append, List.sum_append, List.map_cons, List.sum_cons]
      cases hk : f.isJunction k with
      | true =>
          have hf := isMeasure_size.junction k (f.operandsUnder k)
          rw [← eq_junction_of_isJunction hk] at hf
          rw [List.countP_cons_of_pos hk]
          omega
      | false =>
          rw [List.countP_cons_of_neg (by rw [hk]; exact Bool.false_ne_true),
            operandsUnder_of_isJunction_eq_false hk, List.map_singleton, List.sum_singleton]
          omega

theorem exists_perm_join {k : Connective} {fs : List Formula}
    (hflat : ∀ f ∈ fs, f.isJunction k = false) (hnodup : fs.Nodup) (hlength : 2 ≤ fs.length) :
    ∃ gs, gs.Perm fs ∧ join k fs = junction k gs := by
  have hperm : (joinOperands k fs).Perm fs :=
    (List.perm_ext_iff_of_nodup (isAscending_joinOperands k fs).nodup hnodup).mpr
      fun _ => mem_joinOperands_of_forall hflat
  refine ⟨joinOperands k fs, hperm, ?_⟩
  have hlength' := hperm.length_eq.symm ▸ hlength
  rw [join_eq_collapse]
  match joinOperands k fs, hlength' with
  | _ :: _ :: _, _ => rfl

structure IsOperatorShare (share : Formula → Nat) : Prop where
  const : ∀ value, share (const value) = 0
  junction : ∀ k fs, share (junction k fs) = 0

theorem isOperatorShare_negationShare : IsOperatorShare negationShare where
  const _ := rfl
  junction _ _ := rfl

theorem isOperatorShare_temporalShare : IsOperatorShare temporalShare where
  const _ := rfl
  junction _ _ := rfl

theorem isOperatorShare_nextShare : IsOperatorShare nextShare where
  const _ := rfl
  junction _ _ := rfl

namespace IsOperatorShare

variable {share : Formula → Nat} (h : IsOperatorShare share)

include h

theorem total_const (value : Bool) : (Formula.const value).total share = 0 := by
  rw [total_eq, h.const]
  rfl

theorem total_junction (k : Connective) (fs : List Formula) :
    (Formula.junction k fs).total share = (fs.map (total share)).sum := by
  rw [total_eq, h.junction, Nat.zero_add]
  rfl

theorem total_join_le (k : Connective) (fs : List Formula) :
    (join k fs).total share ≤ (fs.map (total share)).sum := by
  have hsum := sum_joinOperands_le (k := k)
    (fun k fs => Nat.le_of_eq (h.total_junction k fs).symm) fs
  rw [join_eq_collapse]
  match hoperands : joinOperands k fs with
  | [] =>
      show (Formula.const k.neutral).total share ≤ _
      rw [h.total_const]
      exact Nat.zero_le _
  | [f] =>
      rw [hoperands, List.map_singleton, List.sum_singleton] at hsum
      exact hsum
  | f :: g :: gs =>
      rw [hoperands] at hsum
      show (Formula.junction k (f :: g :: gs)).total share ≤ _
      rw [h.total_junction]
      exact hsum

theorem total_join_filter_le {k : Connective} {fs : List Formula} (p : Formula → Bool) :
    (join k (fs.filter p)).total share ≤ (Formula.junction k fs).total share := by
  rw [h.total_junction]
  exact Nat.le_trans (h.total_join_le k _)
    ((List.filter_sublist.map _).sum_le_sum fun _ _ => Nat.zero_le _)

end IsOperatorShare

end Formula

open Formula

namespace Rule

/-!
## What laws other than merging do

Their outcome comes before the formula by negation weight, by size or by next depth.
Only below `always` and `eventually` does a `next` go up without anything else changing.
-/

/-- The formula `g` comes before `f`: by negation weight, by size or by next depth. -/
inductive Descent (f g : Formula) : Prop where
  | negationWeight : g.negationWeight < f.negationWeight → Descent f g
  | size : g.negationWeight ≤ f.negationWeight → g.size < f.size → Descent f g
  | nextDepth : g.negationWeight = f.negationWeight → g.size = f.size →
      g.temporalCount ≤ f.temporalCount → g.nextDepth < f.nextDepth → Descent f g

theorem negationWeight_not (f : Formula) :
    (Formula.not f).negationWeight = f.size + f.negationWeight :=
  rfl

theorem negationWeight_junction (k : Connective) (fs : List Formula) :
    (Formula.junction k fs).negationWeight = (fs.map negationWeight).sum :=
  isOperatorShare_negationShare.total_junction k fs

theorem negationWeight_negated_le (f : Formula) :
    f.negated.negationWeight ≤ f.size + f.negationWeight := by
  cases f with
  | const | literal | atom => exact Nat.zero_le _
  | not body =>
      rw [negationWeight_not]
      show body.negationWeight ≤ _
      omega
  | _ => exact Nat.le_of_eq (negationWeight_not _)

theorem sum_negationWeight_negated_le (fs : List Formula) :
    ((fs.map negated).map negationWeight).sum ≤
      (fs.map size).sum + (fs.map negationWeight).sum := by
  rw [List.map_map, ← List.sum_map_add]
  exact List.sum_le_sum fun f _ => negationWeight_negated_le f

theorem PropositionalStep.descent {f g : Formula} (h : PropositionalStep f g) : Descent f g := by
  cases h with
  | negatedConst | negatedLiteral | negatedAtom => exact Descent.negationWeight (Nat.succ_pos 0)
  | absorbing hmem | complementary hmem =>
      exact Descent.size (Nat.zero_le _) (isMeasure_size.one_lt_junction hmem)
  | neutral _ hneutral =>
      exact Descent.size (isOperatorShare_negationShare.total_join_filter_le _)
        (isMeasure_size.join_filter_lt hneutral rfl)
  | doubleNegation body =>
      apply Descent.negationWeight
      rw [negationWeight_not, negationWeight_not, size]
      omega

theorem Trimmed.negationWeight_le {k : Connective} {siblings : List Formula} {f g : Formula}
    (h : Trimmed k siblings f g) : g.negationWeight ≤ f.negationWeight := by
  cases h with
  | kept => exact Nat.le_refl _
  | shrunk =>
      apply Nat.le_trans (isOperatorShare_negationShare.total_join_le k _)
      exact Nat.le_trans ((List.filter_sublist.map _).sum_le_sum fun _ _ => Nat.zero_le _)
        (sum_operandsUnder_le (fun k fs => Nat.le_of_eq (negationWeight_junction k fs).symm) f)

theorem negationWeight_join_trimmed_le {k l : Connective} {siblings nested trimmed : List Formula}
    (h : List.Forall₂ (Trimmed k siblings) nested trimmed) :
    (join l trimmed).negationWeight ≤ (Formula.junction l nested).negationWeight := by
  have hsum : (trimmed.map negationWeight).sum ≤ (nested.map negationWeight).sum := by
    induction h with
    | nil => exact Nat.le_refl _
    | cons hf _ ih => exact Nat.add_le_add hf.negationWeight_le ih
  rw [negationWeight_junction]
  exact Nat.le_trans (isOperatorShare_negationShare.total_join_le l _) hsum

theorem SubsumptionStep.descent {f g : Formula} (h : SubsumptionStep f g) : Descent f g := by
  cases h with
  | dropRedundant hf =>
      exact Descent.size (isOperatorShare_negationShare.total_join_filter_le _)
        (isMeasure_size.join_filter_lt hf (by simp))
  | dropNested hnested =>
      exact Descent.size (isOperatorShare_negationShare.total_join_filter_le _)
        (isMeasure_size.join_filter_lt hnested (by simp))
  | @trimNested k fs nested trimmed hnested hne htrimmed =>
      apply Descent.size
      · have hjoin := isOperatorShare_negationShare.total_join_le k
          (fs.filter (fun h => h != .junction k.dual nested) ++ [join k.dual trimmed])
        have hdropped := sum_map_filter_add_le negationWeight
          (p := fun h => h != .junction k.dual nested) hnested (by simp)
        have hshrunk := negationWeight_join_trimmed_le (l := k.dual) htrimmed
        rw [List.map_append, List.sum_append, List.map_singleton, List.sum_singleton] at hjoin
        rw [negationWeight_junction]
        exact Nat.le_trans hjoin (Nat.le_trans (Nat.add_le_add_left hshrunk _) hdropped)
      · apply isMeasure_size.join_replace_lt hnested (by simp)
        rw [List.map_singleton, List.sum_singleton]
        exact isMeasure_size.join_trimmed_lt hne htrimmed
  | untlImplied | releaseImplied | eventuallyUntl | alwaysRelease =>
      apply Descent.size
      · simp only [negationWeight, total, negationShare]
        omega
      · simp only [size]
        omega

theorem NextStep.descent {f g : Formula} (h : NextStep f g) (hf : f.IsValid) : Descent f g := by
  cases h with
  | not body =>
      apply Descent.negationWeight
      simp only [negationWeight, total, negationShare, size]
      omega
  | always body | eventually body =>
      refine Descent.nextDepth rfl rfl (Nat.le_refl _) ?_
      simp only [nextDepth, nextDepthFrom]
      omega
  | untl left right | release left right =>
      apply Descent.size
      · simp only [negationWeight, total, negationShare]
        omega
      · simp only [size]
        omega
  | junction k bodies =>
      apply Descent.size
      · have hsum : ((bodies.map Formula.next).map negationWeight).sum =
            (bodies.map negationWeight).sum := by
          rw [List.map_map]
          exact congrArg List.sum (List.map_congr_left fun body _ => Nat.zero_add _)
        have hjoin := isOperatorShare_negationShare.total_join_le k bodies
        rw [negationWeight_junction, hsum]
        exact Nat.le_trans (Nat.le_of_eq (Nat.zero_add _)) hjoin
      · exact isMeasure_size.next_join_add_le (fun _ => rfl) hf

/-!
## Merging

Merging removes a node unless there are just two operands to be merged and others beside
them, and neither merged formula is taken apart.  In that case the sums over the
operands differ by the merged ones only: of two merged operators one is left, and what
stands below it has one more node above.
-/

namespace Distributes

variable {k : Connective} {body? : Formula → Option Formula} {wrap : Formula → Formula}
  (h : Distributes k body? wrap)

include h

theorem isJunction_wrap (f : Formula) : (wrap f).isJunction k = false := by
  cases h with
  | always | eventually | next => rfl

theorem size_wrap (f : Formula) : (wrap f).size = f.size + 1 := by
  cases h with
  | always | eventually | next => rfl

theorem total_wrap (share : Formula → Nat) (f : Formula) :
    (wrap f).total share = share (wrap f) + f.total share := by
  cases h with
  | always | eventually | next => rfl

theorem negationShare_wrap (f : Formula) : (wrap f).negationShare = 0 := by
  cases h with
  | always | eventually | next => rfl

theorem temporalShare_wrap (f : Formula) : (wrap f).temporalShare = 1 := by
  cases h with
  | always | eventually | next => rfl

theorem negationWeight_wrap (f : Formula) : (wrap f).negationWeight = f.negationWeight := by
  rw [negationWeight, h.total_wrap, h.negationShare_wrap, Nat.zero_add]
  rfl

theorem nextDepth_wrap (f : Formula) : (wrap f).nextDepth = f.nextDepth + f.nextCount := by
  cases h with
  | always | eventually | next => exact nextDepth_eq _

end Distributes

def merged (k : Connective) (body? : Formula → Option Formula) (wrap : Formula → Formula)
    (fs : List Formula) : Formula :=
  join k (fs.filter (fun f => (body? f).isNone) ++ [wrap (join k (fs.filterMap body?))])

section

variable {k : Connective} {body? : Formula → Option Formula} {wrap : Formula → Formula}
  (hwrap : Distributes k body? wrap) {fs : List Formula}

include hwrap

theorem negationWeight_merged_le :
    (merged k body? wrap fs).negationWeight ≤ (Formula.junction k fs).negationWeight := by
  have hbodies : ((fs.filterMap body?).map (fun body => (wrap body).negationWeight)).sum =
      ((fs.filterMap body?).map negationWeight).sum :=
    congrArg List.sum (List.map_congr_left fun body _ => hwrap.negationWeight_wrap body)
  have houter := isOperatorShare_negationShare.total_join_le k
    (fs.filter (fun f => (body? f).isNone) ++ [wrap (join k (fs.filterMap body?))])
  have hinner := isOperatorShare_negationShare.total_join_le k (fs.filterMap body?)
  rw [List.map_append, List.sum_append, List.map_singleton, List.sum_singleton] at houter
  rw [negationWeight_junction, sum_merged hwrap, hbodies]
  apply Nat.le_trans houter
  apply Nat.add_le_add_left
  exact Nat.le_trans (Nat.le_of_eq (hwrap.negationWeight_wrap _)) hinner

theorem size_junction_eq :
    (Formula.junction k fs).size = ((fs.filter (fun f => (body? f).isNone)).map size).sum +
      ((fs.filterMap body?).map size).sum + (fs.filterMap body?).length + 1 := by
  have hbodies : ((fs.filterMap body?).map (fun body => (wrap body).size)).sum =
      ((fs.filterMap body?).map size).sum + (fs.filterMap body?).length := by
    rw [List.map_congr_left fun body _ => hwrap.size_wrap body, List.sum_map_add]
    simp
  rw [isMeasure_size.junction, sum_merged hwrap, hbodies]
  omega

theorem size_merged_le :
    (merged k body? wrap fs).size ≤ ((fs.filter (fun f => (body? f).isNone)).map size).sum +
      (join k (fs.filterMap body?)).size + 2 := by
  have hjoin := isMeasure_size.join_le (k := k)
    (fs.filter (fun f => (body? f).isNone) ++ [wrap (join k (fs.filterMap body?))])
  rw [List.map_append, List.sum_append, List.map_singleton, List.sum_singleton,
    hwrap.size_wrap] at hjoin
  exact hjoin

theorem size_merged_lt (hcount : 2 ≤ (fs.filterMap body?).length)
    (h : 2 < (fs.filterMap body?).length ∨ fs.filter (fun f => (body? f).isNone) = [] ∨
      ∃ body ∈ fs.filterMap body?, body.isJunction k = true) :
    (merged k body? wrap fs).size < (Formula.junction k fs).size := by
  have hinner := isMeasure_size.join_le (k := k) (fs.filterMap body?)
  have houter : (merged k body? wrap fs).size ≤ _ := size_merged_le hwrap
  rw [size_junction_eq hwrap]
  rcases h with hthree | hnil | hapart
  · omega
  · have hmerged : merged k body? wrap fs = wrap (join k (fs.filterMap body?)) := by
      unfold merged
      rw [hnil, List.nil_append, join_eq_collapse, joinOperands, List.flatMap_singleton,
        operandsUnder_of_isJunction_eq_false (hwrap.isJunction_wrap _)]
      rfl
    rw [hmerged, hwrap.size_wrap]
    omega
  · have hjoin := isMeasure_size.join_le_joinOperands (k := k) (fs.filterMap body?)
    have hoperands := sum_size_joinOperands_le k (fs.filterMap body?)
    have hpos : 0 < (fs.filterMap body?).countP (isJunction k) := List.countP_pos_iff.mpr hapart
    omega

theorem exists_perm_merged (hvalid : (Formula.junction k fs).IsValid) {b c : Formula}
    (hbodies : fs.filterMap body? = [b, c]) (hrest : fs.filter (fun f => (body? f).isNone) ≠ [])
    (hb : b.isJunction k = false) (hc : c.isJunction k = false) :
    ∃ gs bodies, merged k body? wrap fs = .junction k gs ∧ bodies.Perm [b, c] ∧
      gs.Perm (fs.filter (fun f => (body? f).isNone) ++ [wrap (.junction k bodies)]) := by
  rcases isValid_junction.mp hvalid with ⟨_, hascending, hflat⟩
  have hdistinct : (fs.filter (fun f => (body? f).isNone) ++ [wrap b, wrap c]).Nodup := by
    have hperm := perm_merged hwrap fs
    rw [hbodies] at hperm
    exact hperm.nodup_iff.mp hascending.nodup
  have hbc : [b, c].Nodup := List.Nodup.of_map wrap (List.nodup_append.mp hdistinct).2.1
  rcases exists_perm_join (k := k) (by simp [hb, hc]) hbc (Nat.le_refl 2) with
    ⟨bodies, hperm, hjoin⟩
  have hflat' : ∀ f ∈ fs.filter (fun f => (body? f).isNone) ++ [wrap (.junction k bodies)],
      f.isJunction k = false := by
    refine List.forall_mem_append.mpr ⟨fun f hf => (hflat f (List.mem_filter.mp hf).1).1, ?_⟩
    exact List.forall_mem_singleton.mpr (hwrap.isJunction_wrap _)
  have hnodup : (fs.filter (fun f => (body? f).isNone) ++ [wrap (.junction k bodies)]).Nodup := by
    refine List.nodup_append.mpr ⟨(List.nodup_append.mp hdistinct).1, List.nodup_singleton _, ?_⟩
    rintro f hf _ hwrapped rfl
    have hsome := hwrap.eq_some_iff.mpr (List.mem_singleton.mp hwrapped)
    have hnone := (List.mem_filter.mp hf).2
    rw [hsome] at hnone
    cases hnone
  have hlength : 2 ≤ (fs.filter (fun f => (body? f).isNone) ++
      [wrap (.junction k bodies)]).length := by
    rw [List.length_append]
    exact Nat.succ_le_succ (List.length_pos_iff.mpr hrest)
  rcases exists_perm_join hflat' hnodup hlength with ⟨gs, hgs, hmerged⟩
  refine ⟨gs, bodies, ?_, hperm, hgs⟩
  unfold merged
  rw [hbodies, hjoin, hmerged]

theorem exists_merged_pair (hvalid : (Formula.junction k fs).IsValid) {b c : Formula}
    (hbodies : fs.filterMap body? = [b, c]) (hrest : fs.filter (fun f => (body? f).isNone) ≠ [])
    (hb : b.isJunction k = false) (hc : c.isJunction k = false) :
    ∃ gs bodies, merged k body? wrap fs = .junction k gs ∧ bodies.Perm [b, c] ∧
      ∀ m : Formula → Nat, (gs.map m).sum + m (wrap b) + m (wrap c) =
        (fs.map m).sum + m (wrap (.junction k bodies)) := by
  rcases exists_perm_merged hwrap hvalid hbodies hrest hb hc with ⟨gs, bodies, hmerged, hperm, hgs⟩
  refine ⟨gs, bodies, hmerged, hperm, fun m => ?_⟩
  have hsum := sum_merged hwrap fs m
  rw [hbodies] at hsum
  rw [(hgs.map m).sum_eq, hsum, List.map_append, List.sum_append]
  simp only [List.map_cons, List.map_nil, List.sum_cons, List.sum_nil]
  omega

end

/-- Two operands of a longer junction are merged, neither of which holds a junction that would be
taken apart.  If they are merged below a `next`, there is another one below that. -/
inductive PairMerge : Formula → Formula → Prop where
  | intro {k body? wrap fs b c} : Distributes k body? wrap → fs.filterMap body? = [b, c] →
      fs.filter (fun f => (body? f).isNone) ≠ [] →
      b.isJunction k = false → c.isJunction k = false →
      (wrap b = .next b → 0 < b.nextCount + c.nextCount) →
      PairMerge (.junction k fs) (merged k body? wrap fs)

section

variable {k : Connective} {body? : Formula → Option Formula} {wrap : Formula → Formula}
  (hwrap : Distributes k body? wrap) {fs : List Formula}
  (hvalid : (Formula.junction k fs).IsValid) {b c : Formula}
  (hbodies : fs.filterMap body? = [b, c]) (hrest : fs.filter (fun f => (body? f).isNone) ≠ [])
  (hb : b.isJunction k = false) (hc : c.isJunction k = false)

include hwrap hvalid hbodies hrest hb hc

theorem size_merged_pair : (merged k body? wrap fs).size = (Formula.junction k fs).size := by
  rcases exists_merged_pair hwrap hvalid hbodies hrest hb hc with ⟨gs, bodies, hmerged, hperm, hsum⟩
  have hbodies : (Formula.junction k bodies).size = b.size + c.size + 1 := by
    rw [isMeasure_size.junction, (hperm.map size).sum_eq]
    simp
  have hsum := hsum size
  rw [hwrap.size_wrap, hwrap.size_wrap, hwrap.size_wrap, hbodies] at hsum
  rw [hmerged, isMeasure_size.junction, isMeasure_size.junction]
  omega

theorem total_merged_pair {share : Formula → Nat} (hshare : IsOperatorShare share) {n : Nat}
    (hn : ∀ f, share (wrap f) = n) :
    (merged k body? wrap fs).total share + n = (Formula.junction k fs).total share := by
  rcases exists_merged_pair hwrap hvalid hbodies hrest hb hc with ⟨gs, bodies, hmerged, hperm, hsum⟩
  have hwrapped : ∀ f, (wrap f).total share = n + f.total share := by
    intro f
    rw [hwrap.total_wrap, hn]
  have hbodies : (Formula.junction k bodies).total share = b.total share + c.total share := by
    rw [hshare.total_junction, (hperm.map (total share)).sum_eq]
    simp
  have hsum := hsum (total share)
  rw [hwrapped, hwrapped, hwrapped, hbodies] at hsum
  rw [hmerged, hshare.total_junction, hshare.total_junction]
  omega

theorem nextDepth_merged_pair :
    (merged k body? wrap fs).nextDepth + (wrap b).nextShare =
      (Formula.junction k fs).nextDepth + (b.nextCount + c.nextCount) := by
  rcases exists_merged_pair hwrap hvalid hbodies hrest hb hc with ⟨gs, bodies, hmerged, hperm, hsum⟩
  have hcount : ∀ f, (wrap f).nextCount = (wrap b).nextShare + f.nextCount := by
    intro f
    cases hwrap with
    | always | eventually | next => rfl
  have hbodiesCount : (Formula.junction k bodies).nextCount = b.nextCount + c.nextCount := by
    rw [nextCount, isOperatorShare_nextShare.total_junction,
      (hperm.map (total nextShare)).sum_eq]
    simp [nextCount]
  have hbodiesDepth : (Formula.junction k bodies).nextDepth =
      b.nextDepth + b.nextCount + (c.nextDepth + c.nextCount) := by
    rw [nextDepth_eq, Formula.children, (hperm.map _).sum_eq]
    simp
  have hsum := hsum (fun g => g.nextDepth + g.nextCount)
  simp only [hwrap.nextDepth_wrap, hcount, hbodiesCount, hbodiesDepth] at hsum
  rw [hmerged, nextDepth_eq, nextDepth_eq, Formula.children, Formula.children]
  omega

end

/-!
## What every rule does

A law takes a step down, or it merges two operands of a longer junction.  Only one rule
of the second group looks at junctions, so all the others take a step down whatever they
are applied to.
-/

section

variable {f g : Formula}

theorem descent_or_pairMerge_of_merge {k : Connective} {body? : Formula → Option Formula}
    {wrap : Formula → Formula} (hwrap : Distributes k body? wrap) {fs : List Formula}
    (hf : (Formula.junction k fs).IsValid) (hcount : 2 ≤ (fs.filterMap body?).length) :
    Descent (.junction k fs) (merged k body? wrap fs) ∨
      PairMerge (.junction k fs) (merged k body? wrap fs) := by
  by_cases hsmaller : 2 < (fs.filterMap body?).length ∨
      fs.filter (fun f => (body? f).isNone) = [] ∨
      ∃ body ∈ fs.filterMap body?, body.isJunction k = true
  · exact Or.inl (Descent.size (negationWeight_merged_le hwrap)
      (size_merged_lt hwrap hcount hsmaller))
  · simp only [not_or, not_exists, not_and, Bool.not_eq_true] at hsmaller
    rcases hsmaller with ⟨htwo, hrest, hflat⟩
    rcases List.length_eq_two.mp (Nat.le_antisymm (Nat.le_of_not_lt htwo) hcount) with
      ⟨b, c, hbodies⟩
    rw [hbodies] at hflat
    have hb := hflat b List.mem_cons_self
    have hc := hflat c (List.mem_cons_of_mem b List.mem_cons_self)
    by_cases hnext : wrap b = .next b → 0 < b.nextCount + c.nextCount
    · exact Or.inr (PairMerge.intro hwrap hbodies hrest hb hc hnext)
    · rw [Classical.not_imp, Nat.pos_iff_ne_zero, not_not] at hnext
      have hweight := total_merged_pair hwrap hf hbodies hrest hb hc isOperatorShare_negationShare
        hwrap.negationShare_wrap
      have htemporal := total_merged_pair hwrap hf hbodies hrest hb hc
        isOperatorShare_temporalShare hwrap.temporalShare_wrap
      have hdepth := nextDepth_merged_pair hwrap hf hbodies hrest hb hc
      rw [hnext.1, hnext.2] at hdepth
      exact Or.inl (Descent.nextDepth hweight (size_merged_pair hwrap hf hbodies hrest hb hc)
        (Nat.le_of_succ_le (Nat.le_of_eq htemporal)) (Nat.lt_of_succ_le (Nat.le_of_eq hdepth)))

theorem ModalStep.descent_or_pairMerge (h : ModalStep f g) (hf : f.IsValid) :
    Descent f g ∨ PairMerge f g := by
  cases h with
  | pushJunction k fs =>
      refine Or.inl (Descent.negationWeight ?_)
      have hjoin := isOperatorShare_negationShare.total_join_le k.dual (fs.map negated)
      have hsum := sum_negationWeight_negated_le fs
      rw [negationWeight_not, negationWeight_junction, isMeasure_size.junction]
      exact Nat.lt_of_le_of_lt (Nat.le_trans hjoin hsum) (by omega)
  | pushNext body | pushAlways body | pushEventually body =>
      refine Or.inl (Descent.negationWeight ?_)
      have hbody := negationWeight_negated_le body
      simp only [negationWeight, total, negationShare, size] at hbody ⊢
      omega
  | pushUntl left right | pushRelease left right =>
      refine Or.inl (Descent.negationWeight ?_)
      have hleft := negationWeight_negated_le left
      have hright := negationWeight_negated_le right
      simp only [negationWeight, total, negationShare, size] at hleft hright ⊢
      omega
  | merge hwrap hcount => exact descent_or_pairMerge_of_merge hwrap hf hcount
  | _ =>
      refine Or.inl (Descent.size ?_ ?_)
      · simp only [negationWeight, total, negationShare]
        omega
      · simp only [size]
        omega

theorem Step.descent_or_pairMerge (h : Step f g) (hf : f.IsValid) :
    Descent f g ∨ PairMerge f g := by
  cases h with
  | propositional h => exact Or.inl h.descent
  | modal h => exact h.descent_or_pairMerge hf
  | subsumption h => exact Or.inl h.descent
  | nextFloating h => exact Or.inl (h.descent hf)

theorem isJunction_eq_false_of_mem_modal {rule : Rule} (hrule : rule ∈ modal)
    (hname : rule.name ≠ "merge_temporal") (h : rule.transform f = some g) {k : Connective} :
    f.isJunction k = false := by
  cases f with
  | junction l fs =>
      simp only [modal, List.mem_cons, List.not_mem_nil, or_false] at hrule
      rcases hrule with rfl | rfl | rfl | rfl
      · cases h
      · cases h
      · cases h
      · exact absurd rfl hname
  | _ => rfl

theorem descent_of_name_ne {rule : Rule} (hrule : rule ∈ all)
    (hname : rule.name ≠ "merge_temporal") (hf : f.IsValid) (h : rule.transform f = some g) :
    Descent f g := by
  rcases List.mem_append.mp hrule with hrule | hrule
  · rcases List.mem_append.mp hrule with hrule | hrule
    · rcases List.mem_append.mp hrule with hrule | hrule
      · exact (PropositionalStep.of_mem hrule h).descent
      · rcases (ModalStep.of_mem hrule h).descent_or_pairMerge hf with hdescent | hpair
        · exact hdescent
        · cases hpair with
          | @intro k =>
              have hjunction := isJunction_eq_false_of_mem_modal hrule hname h (k := k)
              rw [isJunction, decide_eq_false_iff_not] at hjunction
              exact absurd rfl hjunction
    · exact (SubsumptionStep.of_mem hrule h).descent
  · exact (NextStep.of_mem hrule h).descent hf

end

end Rule

/-!
## The two orders

The exception leaves negation weight and size as they are and lowers no `next`, but
there is one temporal operator less.
-/

namespace Formula

/-- The formula comes before the other one by negation weight, then size, then next depth. -/
def IsCoarselyBelow (g f : Formula) : Prop :=
  Prod.Lex (· < ·) (Prod.Lex (· < ·) (· < ·)) (g.negationWeight, g.size, g.nextDepth)
    (f.negationWeight, f.size, f.nextDepth)

/-- The formula comes before the other one by negation weight, then size, then the number of
temporal operators, then next depth. -/
def IsBelow (g f : Formula) : Prop :=
  Prod.Lex (· < ·) (Prod.Lex (· < ·) (Prod.Lex (· < ·) (· < ·)))
    (g.negationWeight, g.size, g.temporalCount, g.nextDepth)
    (f.negationWeight, f.size, f.temporalCount, f.nextDepth)

theorem isCoarselyBelow_iff {g f : Formula} : g.IsCoarselyBelow f ↔
    g.negationWeight < f.negationWeight ∨ g.negationWeight = f.negationWeight ∧
      (g.size < f.size ∨ g.size = f.size ∧ g.nextDepth < f.nextDepth) := by
  simp only [IsCoarselyBelow, Prod.lex_def]

theorem isBelow_iff {g f : Formula} : g.IsBelow f ↔
    g.negationWeight < f.negationWeight ∨ g.negationWeight = f.negationWeight ∧
      (g.size < f.size ∨ g.size = f.size ∧
        (g.temporalCount < f.temporalCount ∨ g.temporalCount = f.temporalCount ∧
          g.nextDepth < f.nextDepth)) := by
  simp only [IsBelow, Prod.lex_def]

end Formula

namespace Rule

theorem Descent.isCoarselyBelow {f g : Formula} (h : Descent f g) : g.IsCoarselyBelow f := by
  rw [isCoarselyBelow_iff]
  cases h with
  | negationWeight => omega
  | size => omega
  | nextDepth => omega

theorem Descent.isBelow {f g : Formula} (h : Descent f g) : g.IsBelow f := by
  rw [isBelow_iff]
  cases h with
  | negationWeight => omega
  | size => omega
  | nextDepth => omega

theorem PairMerge.isBelow {f g : Formula} (h : PairMerge f g) (hf : f.IsValid) : g.IsBelow f := by
  cases h with
  | intro hwrap hbodies hrest hb hc _ =>
      have hweight := total_merged_pair hwrap hf hbodies hrest hb hc isOperatorShare_negationShare
        hwrap.negationShare_wrap
      have hsize := size_merged_pair hwrap hf hbodies hrest hb hc
      have htemporal := total_merged_pair hwrap hf hbodies hrest hb hc
        isOperatorShare_temporalShare hwrap.temporalShare_wrap
      exact isBelow_iff.mpr (Or.inr ⟨hweight, Or.inr ⟨hsize,
        Or.inl (Nat.lt_of_succ_le (Nat.le_of_eq htemporal))⟩⟩)

theorem PairMerge.not_isCoarselyBelow {f g : Formula} (h : PairMerge f g) (hf : f.IsValid) :
    ¬ g.IsCoarselyBelow f := by
  cases h with
  | @intro k body? wrap fs b c hwrap hbodies hrest hb hc hnext =>
      have hweight := total_merged_pair hwrap hf hbodies hrest hb hc isOperatorShare_negationShare
        hwrap.negationShare_wrap
      have hsize := size_merged_pair hwrap hf hbodies hrest hb hc
      have hdepth := nextDepth_merged_pair hwrap hf hbodies hrest hb hc
      have hshare : (wrap b).nextShare ≤ b.nextCount + c.nextCount := by
        cases hwrap with
        | always | eventually => exact Nat.zero_le _
        | next => exact hnext rfl
      rw [isCoarselyBelow_iff]
      simp only [negationWeight] at hweight ⊢
      omega

/-- Every rule takes a step down in the finer order.  In the coarser one the only exception is
the merging of two operands beside others, and that is never a step down. -/
theorem apply_descends {rule : Rule} (hrule : rule ∈ all) {f g : Formula} (hf : f.IsValid)
    (happly : rule.apply f = some g) :
    g.IsBelow f ∧
      (g.IsCoarselyBelow f ↔ ¬ (rule.name = "merge_temporal" ∧ PairMerge f g)) := by
  have htransform := transform_of_apply happly
  rcases (Step.of_mem_all hrule htransform).descent_or_pairMerge hf with hdescent | hpair
  · refine ⟨hdescent.isBelow, fun hbelow hexception => ?_, fun _ => hdescent.isCoarselyBelow⟩
    exact hexception.2.not_isCoarselyBelow hf hbelow
  · refine ⟨hpair.isBelow hf, fun hbelow => absurd hbelow (hpair.not_isCoarselyBelow hf), ?_⟩
    intro hno
    have hname : rule.name ≠ "merge_temporal" := fun hname => hno ⟨hname, hpair⟩
    exact (descent_of_name_ne hrule hname hf htransform).isCoarselyBelow

theorem apply_descends_merge :
    let f : Formula := .junction .or [.literal "q" false,
      .next (.next (.literal "a" false)), .next (.next (.literal "b" false))]
    let g : Formula := .junction .or [.literal "q" false,
      .next (.junction .or [.next (.literal "a" false), .next (.literal "b" false)])]
    ∃ rule ∈ all, f.IsValid ∧ rule.apply f = some g ∧ g.IsBelow f ∧
      (g.IsCoarselyBelow f ↔ ¬ (rule.name = "merge_temporal" ∧ PairMerge f g)) := by
  intro f g
  have hf : f.IsValid := rfl
  have hrule : modal[3] ∈ all := by simp [all, modal]
  have happly : modal[3].apply f = some g := by decide +kernel
  exact ⟨modal[3], hrule, hf, happly, apply_descends hrule hf happly⟩

/-- The order without the number of temporal operators does not see that `G a & G b & c` becomes
`c & G (a & b)`. -/
theorem exists_not_isCoarselyBelow :
    let f : Formula := .junction .and [.literal "c" false,
      .always (.literal "a" false), .always (.literal "b" false)]
    let g : Formula := .junction .and [.literal "c" false,
      .always (.junction .and [.literal "a" false, .literal "b" false])]
    ∃ rule ∈ all, f.IsValid ∧ rule.apply f = some g ∧ ¬ g.IsCoarselyBelow f := by
  intro f g
  have happly : modal[3].apply f = some g := by decide +kernel
  refine ⟨modal[3], by simp [all, modal], rfl, happly, ?_⟩
  rw [isCoarselyBelow_iff]
  decide

end Rule

end LinearTemporal

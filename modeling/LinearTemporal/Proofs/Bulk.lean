import LinearTemporal.Proofs.Measures
import LinearTemporal.Simplification.Weight

/-!
# Weight and bulk

Two measures of formulas.  The weight bounds how deeply rewriting can nest; it is
smaller for the parts of a formula than for the whole.  The bulk bounds how often
rules can fire at one node: it does not count negations, so moving one inwards
costs nothing, and twice the bulk with one more for a negation at the root is the
charge that firings use up.
-/

namespace LinearTemporal
namespace Formula

/-!
## Weight

It adds up over the operands of a junction, and a negation doubles it.
-/

theorem weightAll_eq_sum (fs : List Formula) : weightAll fs = (fs.map weight).sum := by
  induction fs with
  | nil => rfl
  | cons f fs ih => rw [weightAll, ih, List.map_cons, List.sum_cons]

theorem weight_pos (f : Formula) : 1 ≤ f.weight := by
  induction f using induction_on_children with
  | step f ih =>
      cases f with
      | not body =>
          have hbody := ih body (by simp [children])
          simp only [weight]
          omega
      | _ =>
          simp only [weight]
          omega

theorem isMeasure_weight : IsMeasure weight where
  pos := weight_pos
  const _ := by simp only [weight]
  junction _ fs := by simp only [weight, weightAll_eq_sum]
  not h := by
    simp only [weight]
    omega
  next h := by
    simp only [weight]
    omega
  always h := by
    simp only [weight]
    omega
  eventually h := by
    simp only [weight]
    omega
  untl hl hr := by
    simp only [weight]
    omega
  release hl hr := by
    simp only [weight]
    omega

theorem weight_lt_of_mem_children {f g : Formula} (h : g ∈ f.children) : g.weight < f.weight := by
  cases f with
  | const | literal | atom => cases h
  | not body =>
      cases List.mem_singleton.mp h
      have hpos := weight_pos g
      simp only [weight]
      omega
  | next body | always body | eventually body =>
      cases List.mem_singleton.mp h
      simp only [weight]
      omega
  | untl left right | release left right =>
      simp only [children, List.mem_cons, List.not_mem_nil, or_false] at h
      rcases h with rfl | rfl
      · simp only [weight]
        omega
      · simp only [weight]
        omega
  | junction k fs =>
      have hle := List.single_le_sum (fun _ _ => Nat.zero_le _) _
        (List.mem_map_of_mem (f := weight) h)
      rw [isMeasure_weight.junction]
      exact Nat.lt_succ_of_le hle

theorem weight_negated_le (f : Formula) : f.negated.weight ≤ 2 * f.weight := by
  cases f with
  | not body =>
      show body.weight ≤ _
      simp only [weight]
      omega
  | const | literal | atom =>
      simp only [negated, complement?, Option.getD_some, weight]
      omega
  | _ => exact Nat.le_refl _

theorem sum_weight_negated_le (fs : List Formula) :
    ((fs.map negated).map weight).sum ≤ 2 * (fs.map weight).sum := by
  induction fs with
  | nil => exact Nat.le_refl 0
  | cons f fs ih =>
      have hf := weight_negated_le f
      simp only [List.map_cons, List.sum_cons]
      omega

/-!
## Bulk

It is the size without negations, where temporal operators count twice.  Charge is twice
the bulk, with one more for a negation at the root, so replacing parts by less bulky
ones raises no charge.
-/

mutual

/-- The size without negations, with temporal operators counted twice. -/
def bulk : Formula → Nat
  | not body => body.bulk
  | next body => body.bulk + 2
  | always body => body.bulk + 2
  | eventually body => body.bulk + 2
  | untl left right => left.bulk + right.bulk + 2
  | release left right => left.bulk + right.bulk + 2
  | junction _ operands => bulkAll operands + 1
  | _ => 1

def bulkAll : List Formula → Nat
  | [] => 0
  | f :: fs => f.bulk + bulkAll fs

end

theorem bulkAll_eq_sum (fs : List Formula) : bulkAll fs = (fs.map bulk).sum := by
  induction fs with
  | nil => rfl
  | cons f fs ih => rw [bulkAll, ih, List.map_cons, List.sum_cons]

theorem isUnsigned_bulk : IsUnsigned bulk 2 where
  extra_pos := Nat.le_succ 1
  const _ := by simp only [bulk]
  literal _ _ := by simp only [bulk]
  atom _ _ _ := by simp only [bulk]
  not _ := by simp only [bulk]
  next _ := by simp only [bulk]
  always _ := by simp only [bulk]
  eventually _ := by simp only [bulk]
  untl _ _ := by simp only [bulk]
  release _ _ := by simp only [bulk]
  junction _ fs := by simp only [bulk, bulkAll_eq_sum]

theorem isMeasure_bulk : IsMeasure bulk :=
  isUnsigned_bulk.isMeasure

mutual

theorem bulk_le_size : ∀ f : Formula, f.bulk ≤ 2 * f.size
  | const _ | literal .. | atom .. => by
      simp only [bulk, size]
      omega
  | not body | next body | always body | eventually body => by
      have hbody := bulk_le_size body
      simp only [bulk, size]
      omega
  | untl left right | release left right => by
      have hleft := bulk_le_size left
      have hright := bulk_le_size right
      simp only [bulk, size]
      omega
  | junction _ fs => by
      have hfs := bulkAll_le_sizeAll fs
      simp only [bulk, size]
      omega

theorem bulkAll_le_sizeAll : ∀ fs : List Formula, bulkAll fs ≤ 2 * sizeAll fs
  | [] => Nat.le_refl 0
  | f :: fs => by
      have hf := bulk_le_size f
      have hfs := bulkAll_le_sizeAll fs
      simp only [bulkAll, sizeAll]
      omega

end

def charge : Formula → Nat
  | not body => 2 * body.bulk + 1
  | f => 2 * f.bulk

theorem two_mul_bulk_le_charge (f : Formula) : 2 * f.bulk ≤ f.charge := by
  cases f with
  | not body => exact Nat.le_succ _
  | _ => exact Nat.le_refl _

theorem charge_le (f : Formula) : f.charge ≤ 2 * f.bulk + 1 := by
  cases f with
  | not body => exact Nat.le_refl _
  | _ => exact Nat.le_succ _

theorem charge_of_ne_not {f : Formula} (h : ∀ body, f ≠ not body) : f.charge = 2 * f.bulk := by
  cases f with
  | not body => exact absurd rfl (h body)
  | _ => rfl

theorem charge_lt_of_bulk_lt {f g : Formula} (h : g.bulk < f.bulk) : g.charge < f.charge := by
  have hg := charge_le g
  have hf := two_mul_bulk_le_charge f
  omega

theorem charge_le_size (f : Formula) : f.charge ≤ 4 * f.size := by
  have hbulk := bulk_le_size f
  cases f with
  | not body =>
      have hbody := bulk_le_size body
      simp only [charge, size]
      omega
  | _ =>
      simp only [charge]
      omega

theorem charge_join_le (k : Connective) (fs : List Formula) :
    (join k fs).charge ≤ 2 * ((fs.map bulk).sum + 1) := by
  have hjoin := isMeasure_bulk.join_le (k := k) fs
  cases hshape : join k fs with
  | not body =>
      have hnot := isMeasure_bulk.le_of_join_eq_not hshape
      simp only [bulk] at hnot
      simp only [charge]
      omega
  | _ =>
      rw [hshape] at hjoin
      simp only [charge]
      omega

theorem charge_mapChildren_le {change : Formula → Formula} {f : Formula}
    (h : ∀ g ∈ f.children, (change g).bulk ≤ g.bulk) :
    (f.mapChildren change).charge ≤ f.charge := by
  cases f.arity with
  | leaf hleaf => rw [mapChildren_of_children_eq_nil change hleaf]
  | unary hop body =>
      have hbody := h body (by simp [hop.children])
      rw [hop.mapChildren]
      cases hop with
      | not =>
          simp only [charge]
          omega
      | next | always | eventually =>
          simp only [charge, bulk]
          omega
  | binary hop left right =>
      have hleft := h left (by simp [hop.children])
      have hright := h right (by simp [hop.children])
      rw [hop.mapChildren]
      cases hop with
      | untl | release =>
          simp only [charge, bulk]
          omega
  | junction k fs =>
      by_cases hmap : fs.map change = fs
      · rw [mapChildren_of_map_eq change (f := junction k fs) hmap]
      · rw [mapChildren_junction_of_ne change hmap]
        have hjoin := charge_join_le k (fs.map change)
        have hsum : ((fs.map change).map bulk).sum ≤ (fs.map bulk).sum := by
          rw [List.map_map]
          exact List.sum_le_sum h
        have hcharge := two_mul_bulk_le_charge (junction k fs)
        rw [isMeasure_bulk.junction] at hcharge
        omega

end Formula

end LinearTemporal

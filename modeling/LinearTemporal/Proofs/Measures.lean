import Mathlib.Algebra.BigOperators.Ring.List
import Mathlib.Algebra.Order.BigOperators.Group.List
import Mathlib.Algebra.Order.Ring.Nat
import LinearTemporal.Proofs.RuleStep

/-!
# Measures of formulas

A measure adds up the operands of a junction and one more for the junction itself.
So a junction that is joined anew measures no more than before, and less if an
operand was dropped on the way.  All laws that only drop, shrink or merge operands
are covered by this, for any measure; what remains to be compared is how a measure
counts the other operators.  The measures that do not see negations are alike but for
what a temporal operator adds.
-/

namespace LinearTemporal

/-!
## Sums over a list

A repetition that is left out counts for nothing, so a set adds up to no more than the
list it is made of.
-/

theorem Ascending.sum_map_insert_le {α : Type} [Ord α] (m : α → Nat) (x : α) (xs : List α) :
    ((Ascending.insert x xs).map m).sum ≤ m x + (xs.map m).sum := by
  induction xs with
  | nil => simp [Ascending.insert]
  | cons y ys ih =>
      unfold Ascending.insert
      split
      · simp
      · simp
      · simp only [List.map_cons, List.sum_cons]
        omega

theorem Ascending.sum_map_ofList_le {α : Type} [Ord α] (m : α → Nat) (xs : List α) :
    ((Ascending.ofList xs).map m).sum ≤ (xs.map m).sum := by
  have hfold : ∀ sorted : List α,
      ((xs.foldl (fun acc x => Ascending.insert x acc) sorted).map m).sum ≤
        (sorted.map m).sum + (xs.map m).sum := by
    induction xs with
    | nil =>
        intro sorted
        simp
    | cons x xs ih =>
        intro sorted
        have hinsert := Ascending.sum_map_insert_le m x sorted
        have hrest := ih (Ascending.insert x sorted)
        simp only [List.foldl_cons, List.map_cons, List.sum_cons]
        omega
  simpa [Ascending.ofList] using hfold []

theorem sum_map_filter_add_le {α : Type} (m : α → Nat) {p : α → Bool} {xs : List α} {x : α}
    (hx : x ∈ xs) (hp : p x = false) :
    ((xs.filter p).map m).sum + m x ≤ (xs.map m).sum := by
  have hfilter : ∀ ys : List α, ((ys.filter p).map m).sum ≤ (ys.map m).sum := fun ys =>
    (List.filter_sublist.map m).sum_le_sum (fun _ _ => Nat.zero_le _)
  induction hx with
  | head xs =>
      have hle := hfilter xs
      rw [List.filter_cons_of_neg (by rw [hp]; exact Bool.false_ne_true), List.map_cons,
        List.sum_cons]
      omega
  | tail y hx ih =>
      cases hy : p y with
      | true =>
          rw [List.filter_cons_of_pos hy]
          simp only [List.map_cons, List.sum_cons]
          omega
      | false =>
          rw [List.filter_cons_of_neg (by rw [hy]; exact Bool.false_ne_true)]
          simp only [List.map_cons, List.sum_cons]
          omega

namespace Formula

/-!
## Sums over operands

Taking junctions apart saves what they count for themselves.
-/

section

variable {m : Formula → Nat} (hm : ∀ k fs, (fs.map m).sum ≤ m (junction k fs)) {k : Connective}

include hm

theorem sum_operandsUnder_le (f : Formula) : ((f.operandsUnder k).map m).sum ≤ m f := by
  cases hk : f.isJunction k with
  | true =>
      have hf := hm k (f.operandsUnder k)
      rw [← eq_junction_of_isJunction hk] at hf
      exact hf
  | false =>
      rw [operandsUnder_of_isJunction_eq_false hk]
      simp

theorem sum_joinOperands_le (fs : List Formula) :
    ((joinOperands k fs).map m).sum ≤ (fs.map m).sum := by
  apply Nat.le_trans (Ascending.sum_map_ofList_le m _)
  induction fs with
  | nil => exact Nat.le_refl 0
  | cons f fs ih =>
      have hf := sum_operandsUnder_le hm (k := k) f
      rw [List.flatMap_cons, List.map_append, List.sum_append, List.map_cons, List.sum_cons]
      omega

end

section

variable {k : Connective} {body? : Formula → Option Formula} {wrap : Formula → Formula}
  (h : Rule.Distributes k body? wrap) (fs : List Formula)

include h

theorem perm_merged :
    fs.Perm (fs.filter (fun f => (body? f).isNone) ++ (fs.filterMap body?).map wrap) := by
  induction fs with
  | nil => exact List.Perm.refl _
  | cons f fs ih =>
      cases hbody : body? f with
      | none =>
          rw [List.filter_cons_of_pos (by rw [hbody]; rfl), List.filterMap_cons_none hbody]
          exact ih.cons f
      | some body =>
          rw [List.filter_cons_of_neg (by rw [hbody]; exact Bool.false_ne_true),
            List.filterMap_cons_some hbody, h.eq_some_iff.mp hbody]
          exact (ih.cons _).trans List.perm_middle.symm

theorem sum_merged (m : Formula → Nat) :
    (fs.map m).sum = ((fs.filter (fun f => (body? f).isNone)).map m).sum +
      ((fs.filterMap body?).map (fun body => m (wrap body))).sum := by
  rw [((perm_merged h fs).map m).sum_eq, List.map_append, List.sum_append, List.map_map]
  rfl

end

/-!
## Measures

Every operator passes a measure on monotonically, and a junction adds up its operands.
Joining adds one at most, and where it leaves a negation it has done away with the
junction.
-/

/-- A count that every operator passes on monotonically, and that adds up over the
operands of a junction. -/
structure IsMeasure (m : Formula → Nat) : Prop where
  pos : ∀ f, 1 ≤ m f
  const : ∀ value, m (const value) = 1
  junction : ∀ k fs, m (junction k fs) = (fs.map m).sum + 1
  not : ∀ {f g}, m g ≤ m f → m (not g) ≤ m (not f)
  next : ∀ {f g}, m g ≤ m f → m (next g) ≤ m (next f)
  always : ∀ {f g}, m g ≤ m f → m (always g) ≤ m (always f)
  eventually : ∀ {f g}, m g ≤ m f → m (eventually g) ≤ m (eventually f)
  untl : ∀ {f f' g g'}, m f' ≤ m f → m g' ≤ m g → m (untl f' g') ≤ m (untl f g)
  release : ∀ {f f' g g'}, m f' ≤ m f → m g' ≤ m g → m (release f' g') ≤ m (release f g)

namespace IsMeasure

variable {m : Formula → Nat} (hm : IsMeasure m) {k : Connective}

include hm

theorem sum_le_junction (k : Connective) (fs : List Formula) :
    (fs.map m).sum ≤ m (Formula.junction k fs) :=
  Nat.le_of_succ_le (Nat.le_of_eq (hm.junction k fs).symm)

theorem join_le_joinOperands (fs : List Formula) :
    m (join k fs) ≤ ((joinOperands k fs).map m).sum + 1 := by
  rw [join_eq_collapse]
  match joinOperands k fs with
  | [] => exact Nat.le_of_eq (hm.const _)
  | [f] => exact Nat.le_succ _
  | f :: g :: gs => exact Nat.le_of_eq (hm.junction k _)

/-- Joining adds one at most. -/
theorem join_le (fs : List Formula) : m (join k fs) ≤ (fs.map m).sum + 1 :=
  Nat.le_trans (hm.join_le_joinOperands fs) (Nat.succ_le_succ (sum_joinOperands_le hm.sum_le_junction fs))

theorem le_of_join_eq_not {fs : List Formula} {body : Formula}
    (h : join k fs = Formula.not body) : m (Formula.not body) ≤ (fs.map m).sum := by
  have hsum := sum_joinOperands_le hm.sum_le_junction (k := k) fs
  rw [join_eq_collapse] at h
  match hoperands : joinOperands k fs with
  | [] =>
      rw [hoperands] at h
      cases h
  | [f] =>
      rw [hoperands] at h
      have hf : f = Formula.not body := h
      rw [hoperands, List.map_singleton, List.sum_singleton, hf] at hsum
      exact hsum
  | f :: g :: gs =>
      rw [hoperands] at h
      cases h

theorem isCongruence : IsCongruence (fun f g => m g ≤ m f) where
  refl f := Nat.le_refl (m f)
  not := hm.not
  next := hm.next
  always := hm.always
  eventually := hm.eventually
  untl := hm.untl
  release := hm.release
  junction := by
    intro k fs change hchange
    have hjoin := hm.join_le (k := k) (fs.map change)
    have hsum : ((fs.map change).map m).sum ≤ (fs.map m).sum := by
      rw [List.map_map]
      exact List.sum_le_sum hchange
    rw [hm.junction]
    omega

/-!
## Laws about the operands of a junction

A dropped operand, or a new one that measures less than a dropped one, makes the
junction smaller.  Merging saves what one operator adds and costs what the operator
makes of the new formula below it; pulling `next` out of two operands or more saves one
at least.
-/

theorem one_lt_junction {fs : List Formula} {f : Formula} (hf : f ∈ fs) :
    1 < m (Formula.junction k fs) := by
  have hpos := hm.pos f
  have hle := List.single_le_sum (fun _ _ => Nat.zero_le _) _ (List.mem_map_of_mem (f := m) hf)
  rw [hm.junction]
  omega

theorem join_replace_lt {fs replacement : List Formula} {p : Formula → Bool} {f : Formula}
    (hf : f ∈ fs) (hp : p f = false) (hlt : (replacement.map m).sum < m f) :
    m (join k (fs.filter p ++ replacement)) < m (Formula.junction k fs) := by
  have hjoin := hm.join_le (k := k) (fs.filter p ++ replacement)
  have hsum := sum_map_filter_add_le m hf hp
  rw [List.map_append, List.sum_append] at hjoin
  rw [hm.junction]
  omega

theorem join_filter_lt {fs : List Formula} {p : Formula → Bool} {f : Formula}
    (hf : f ∈ fs) (hp : p f = false) : m (join k (fs.filter p)) < m (Formula.junction k fs) := by
  rw [← List.append_nil (fs.filter p)]
  exact hm.join_replace_lt hf hp (hm.pos f)

theorem join_remaining_lt {siblings : List Formula} {f : Formula}
    (hne : Rule.remaining k siblings f ≠ [])
    (hlength : (Rule.remaining k siblings f).length < (f.operandsUnder k).length) :
    m (join k (Rule.remaining k siblings f)) < m f := by
  cases hk : f.isJunction k with
  | true =>
      rcases List.length_filter_lt_length_iff_exists.mp hlength with ⟨g, hg, hdropped⟩
      have hlt : m (join k (Rule.remaining k siblings f)) <
          m (Formula.junction k (f.operandsUnder k)) :=
        hm.join_filter_lt hg (by simpa using hdropped)
      rw [← eq_junction_of_isJunction hk] at hlt
      exact hlt
  | false =>
      rw [operandsUnder_of_isJunction_eq_false hk, List.length_singleton, Nat.lt_one_iff] at hlength
      exact absurd (List.length_eq_zero_iff.mp hlength) hne

theorem sum_le_of_trimmed {siblings nested trimmed : List Formula}
    (h : List.Forall₂ (Rule.Trimmed k siblings) nested trimmed) :
    trimmed = nested ∨ (trimmed.map m).sum < (nested.map m).sum := by
  induction h with
  | nil => exact Or.inl rfl
  | @cons f f' nested trimmed hf _ ih =>
      simp only [List.map_cons, List.sum_cons]
      cases hf with
      | kept =>
          rcases ih with heq | hlt
          · exact Or.inl (by rw [heq])
          · exact Or.inr (Nat.add_lt_add_left hlt (m f))
      | shrunk hne hlength =>
          have hf := hm.join_remaining_lt hne hlength
          rcases ih with heq | hlt
          · rw [heq]
            exact Or.inr (Nat.add_lt_add_right hf _)
          · exact Or.inr (Nat.add_lt_add hf hlt)

theorem join_trimmed_lt {siblings nested trimmed : List Formula} (hne : trimmed ≠ nested)
    (h : List.Forall₂ (Rule.Trimmed k siblings) nested trimmed) :
    m (join k.dual trimmed) < m (Formula.junction k.dual nested) := by
  have hjoin := hm.join_le (k := k.dual) trimmed
  rcases hm.sum_le_of_trimmed h with heq | hlt
  · exact absurd heq hne
  · rw [hm.junction]
    omega

section

variable {body? : Formula → Option Formula} {wrap : Formula → Formula}
  (hwrap : Rule.Distributes k body? wrap) (factor extra : Nat)
  (hcost : ∀ f, m (wrap f) = factor * m f + extra) {fs : List Formula}
  (hcount : 2 ≤ (fs.filterMap body?).length)

include hwrap hcost hcount

theorem join_wrap_add_le {merged : Formula}
    (hmerged : m merged ≤ ((fs.filterMap body?).map m).sum + 1) :
    m (join k (fs.filter (fun f => (body? f).isNone) ++ [wrap merged])) + extra ≤
      m (Formula.junction k fs) + factor := by
  have hsplit : ((fs.filter (fun f => (body? f).isNone)).map m).sum +
      factor * ((fs.filterMap body?).map m).sum + extra * (fs.filterMap body?).length =
        (fs.map m).sum := by
    rw [sum_merged hwrap fs m, List.map_congr_left fun body _ => hcost body, List.sum_map_add,
      List.sum_map_mul_left]
    simp [Nat.add_assoc, Nat.mul_comm]
  have hwrapped : m (wrap merged) ≤
      factor * ((fs.filterMap body?).map m).sum + factor + extra := by
    rw [hcost]
    have hmul := Nat.mul_le_mul_left factor hmerged
    rw [Nat.mul_add, Nat.mul_one] at hmul
    omega
  have htwo : extra * 2 ≤ extra * (fs.filterMap body?).length := Nat.mul_le_mul_left extra hcount
  have hjoin := hm.join_le (k := k) (fs.filter (fun f => (body? f).isNone) ++ [wrap merged])
  rw [List.map_append, List.sum_append, List.map_singleton, List.sum_singleton] at hjoin
  rw [hm.junction]
  omega

theorem join_merge_add_le :
    m (join k (fs.filter (fun f => (body? f).isNone) ++ [wrap (join k (fs.filterMap body?))])) +
      extra ≤ m (Formula.junction k fs) + factor :=
  hm.join_wrap_add_le hwrap factor extra hcost hcount (hm.join_le _)

/-- Merging two operands or more pays if the merged operator adds more than it
multiplies. -/
theorem join_merge_lt (hfactor : factor < extra) :
    m (join k (fs.filter (fun f => (body? f).isNone) ++ [wrap (join k (fs.filterMap body?))])) <
      m (Formula.junction k fs) := by
  have hle := hm.join_merge_add_le hwrap factor extra hcost hcount
  omega

end

theorem next_join_add_le {extra : Nat} (hnext : ∀ f, m (Formula.next f) = m f + extra)
    {bodies : List Formula} (hf : (Formula.junction k (bodies.map Formula.next)).IsValid) :
    m (Formula.next (join k bodies)) + extra ≤
      m (Formula.junction k (bodies.map Formula.next)) := by
  have hsum : ((bodies.map Formula.next).map m).sum =
      (bodies.map m).sum + extra * bodies.length := by
    clear hf
    induction bodies with
    | nil => rfl
    | cons body bodies ih =>
        simp only [List.map_cons, List.sum_cons, List.length_cons, ih, hnext, Nat.mul_succ]
        omega
  have hlength := (isValid_junction.mp hf).1
  rw [List.length_map] at hlength
  have htwo : extra * 2 ≤ extra * bodies.length := Nat.mul_le_mul_left extra hlength
  have hjoin := hm.join_le (k := k) bodies
  rw [hnext, hm.junction, hsum]
  omega

end IsMeasure

/-!
## Measures without signs

They do not see negations, and all temporal operators add the same to them.
-/

structure IsUnsigned (m : Formula → Nat) (extra : Nat) : Prop where
  extra_pos : 1 ≤ extra
  const : ∀ value, m (const value) = 1
  literal : ∀ name negated, m (literal name negated) = 1
  atom : ∀ left op right, m (atom left op right) = 1
  not : ∀ f, m (not f) = m f
  next : ∀ f, m (next f) = m f + extra
  always : ∀ f, m (always f) = m f + extra
  eventually : ∀ f, m (eventually f) = m f + extra
  untl : ∀ f g, m (untl f g) = m f + m g + extra
  release : ∀ f g, m (release f g) = m f + m g + extra
  junction : ∀ k fs, m (junction k fs) = (fs.map m).sum + 1

namespace IsUnsigned

variable {m : Formula → Nat} {extra : Nat} (hm : IsUnsigned m extra)

include hm

theorem pos (f : Formula) : 1 ≤ m f := by
  have hextra := hm.extra_pos
  induction f using induction_on_children with
  | step f ih =>
      cases f with
      | not body =>
          rw [hm.not]
          exact ih body List.mem_cons_self
      | const | literal | atom => simp only [hm.const, hm.literal, hm.atom, Nat.le_refl]
      | next | always | eventually | untl | release | junction =>
          simp only [hm.next, hm.always, hm.eventually, hm.untl, hm.release, hm.junction]
          omega

theorem isMeasure : IsMeasure m where
  pos := hm.pos
  const := hm.const
  junction := hm.junction
  not h := by
    rw [hm.not, hm.not]
    exact h
  next h := by
    rw [hm.next, hm.next]
    exact Nat.add_le_add_right h extra
  always h := by
    rw [hm.always, hm.always]
    exact Nat.add_le_add_right h extra
  eventually h := by
    rw [hm.eventually, hm.eventually]
    exact Nat.add_le_add_right h extra
  untl hl hr := by
    rw [hm.untl, hm.untl]
    exact Nat.add_le_add_right (Nat.add_le_add hl hr) extra
  release hl hr := by
    rw [hm.release, hm.release]
    exact Nat.add_le_add_right (Nat.add_le_add hl hr) extra

theorem negated (f : Formula) : m f.negated = m f := by
  cases f with
  | const => exact (hm.const _).trans (hm.const _).symm
  | literal => exact (hm.literal _ _).trans (hm.literal _ _).symm
  | atom => exact (hm.atom _ _ _).trans (hm.atom _ _ _).symm
  | not body => exact (hm.not body).symm
  | next | always | eventually | untl | release | junction => exact hm.not _

theorem sum_negated (fs : List Formula) :
    ((fs.map Formula.negated).map m).sum = (fs.map m).sum := by
  rw [List.map_map]
  exact congrArg List.sum (List.map_congr_left fun f _ => hm.negated f)

end IsUnsigned

end Formula
end LinearTemporal

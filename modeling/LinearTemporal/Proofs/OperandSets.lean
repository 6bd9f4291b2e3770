import Mathlib.Data.Set.Basic
import LinearTemporal.Proofs.Equivalence

/-!
# Junctions as sets

A junction that `join` builds stands for a set: the operands that are left when each nested
junction with the same connective is replaced by its own.  Valid formulas join to the same
formula exactly if they make the same set, so the order of what is joined, repetitions and
the way it is grouped do not show in the result.  The result is true where all, or any, of
what is joined is true.
-/

namespace LinearTemporal
namespace Formula

/-!
## The set of operands

Valid formulas need this once only, since a junction has no operand with its own
connective; taking the same set again changes nothing.
-/

/-- The set of some formulas, with each junction with connective `k` among them replaced by its
own operands. -/
def operandSet (k : Connective) (fs : List Formula) : Set Formula :=
  {g | (g ∈ fs ∧ g.isJunction k = false) ∨ ∃ operands, junction k operands ∈ fs ∧ g ∈ operands}

variable {k : Connective}

theorem mem_operandSet_iff {fs : List Formula} {g : Formula} :
    g ∈ operandSet k fs ↔ ∃ f ∈ fs, g ∈ f.operandsUnder k := by
  constructor
  · rintro (⟨hg, hk⟩ | ⟨operands, hjunction, hg⟩)
    · refine ⟨g, hg, ?_⟩
      rw [operandsUnder_of_isJunction_eq_false hk]
      exact List.mem_singleton_self g
    · exact ⟨junction k operands, hjunction, mem_operandsUnder_junction.mpr hg⟩
  · rintro ⟨f, hf, hg⟩
    cases hk : f.isJunction k with
    | true =>
        rw [eq_junction_of_isJunction hk] at hf
        exact Or.inr ⟨f.operandsUnder k, hf, hg⟩
    | false =>
        rw [operandsUnder_of_isJunction_eq_false hk] at hg
        cases List.mem_singleton.mp hg
        exact Or.inl ⟨hf, hk⟩

theorem mem_operandSet_flatten {groups : List (List Formula)} {g : Formula} :
    g ∈ operandSet k groups.flatten ↔ ∃ fs ∈ groups, g ∈ operandSet k fs := by
  simp only [mem_operandSet_iff, List.mem_flatten]
  constructor
  · rintro ⟨f, ⟨fs, hfs, hf⟩, hg⟩
    exact ⟨fs, hfs, f, hf, hg⟩
  · rintro ⟨fs, hfs, f, hf, hg⟩
    exact ⟨f, ⟨fs, hfs, hf⟩, hg⟩

/-!
## Joining the same set

Joining loses no operand and makes none up, as long as there is something to join, so
the set can be read back from the result.  Formulas may be joined in groups first if no
group is empty.
-/

theorem join_eq_of_operandSet_eq {fs gs : List Formula} (h : operandSet k fs = operandSet k gs) :
    join k fs = join k gs := by
  apply join_congr
  intro g
  rw [← mem_operandSet_iff, ← mem_operandSet_iff, h]

theorem operandSet_join {fs : List Formula} (hne : fs ≠ []) (hfs : ∀ f ∈ fs, f.IsValid) :
    operandSet k [join k fs] = operandSet k fs := by
  ext g
  rw [mem_operandSet_iff, mem_operandSet_iff, ← mem_operandsUnder_join_iff hne hfs]
  simp only [List.mem_singleton, exists_eq_left]

theorem join_eq_join_iff {fs gs : List Formula} (hfs : fs ≠ []) (hgs : gs ≠ [])
    (hfsvalid : ∀ f ∈ fs, f.IsValid) (hgsvalid : ∀ g ∈ gs, g.IsValid) :
    join k fs = join k gs ↔ operandSet k fs = operandSet k gs := by
  constructor
  · intro h
    rw [← operandSet_join hfs hfsvalid, h, operandSet_join hgs hgsvalid]
  · exact join_eq_of_operandSet_eq

theorem join_map_join {groups : List (List Formula)} (hne : ∀ fs ∈ groups, fs ≠ [])
    (hvalid : ∀ fs ∈ groups, ∀ f ∈ fs, f.IsValid) :
    join k (groups.map (join k)) = join k groups.flatten := by
  -- An empty group would come back as an operand of its own, the neutral constant.
  have hgroup : ∀ fs ∈ groups, ∀ g, g ∈ operandSet k fs ↔ g ∈ operandSet k [join k fs] := by
    intro fs hfs g
    rw [operandSet_join (hne fs hfs) (hvalid fs hfs)]
  apply join_eq_of_operandSet_eq
  ext g
  rw [mem_operandSet_flatten, mem_operandSet_iff]
  simp only [List.mem_map, exists_exists_and_eq_and]
  refine exists_congr fun fs => and_congr_right fun hfs => ?_
  rw [hgroup fs hfs, mem_operandSet_iff]
  simp only [List.mem_singleton, exists_eq_left]

end Formula

/-!
## The meaning of what is joined

A conjunction of no formulas is true, and a disjunction of none is false.
-/

namespace Lasso

open Formula

variable (w : Lasso) (i : Nat)

theorem holdsAt_conj (fs : List Formula) :
    w.holdsAt (conj fs) i = true ↔ ∀ f ∈ fs, w.holdsAt f i = true := by
  simp only [holdsAt_iff_holds_word, holds_conj]

theorem holdsAt_disj (fs : List Formula) :
    w.holdsAt (disj fs) i = true ↔ ∃ f ∈ fs, w.holdsAt f i = true := by
  simp only [holdsAt_iff_holds_word, holds_disj]

end Lasso

namespace Formula

/-- Joining puts formulas in canonical shape: the result is determined by the set of operands
and determines it, and it means what the connective says, also of no formulas at all. -/
theorem join_canonical :
    (∀ (k : Connective) (fs gs : List Formula), fs ≠ [] → gs ≠ [] →
      (∀ f ∈ fs, f.IsValid) → (∀ g ∈ gs, g.IsValid) →
        (join k fs = join k gs ↔ operandSet k fs = operandSet k gs) ∧
        ((∀ f, f ∈ fs ↔ f ∈ gs) → join k fs = join k gs) ∧
        join k [join k fs, join k gs] = join k (fs ++ gs)) ∧
    (∀ (k : Connective) (groups : List (List Formula)), (∀ fs ∈ groups, fs ≠ []) →
      (∀ fs ∈ groups, ∀ f ∈ fs, f.IsValid) →
        join k (groups.map (join k)) = join k groups.flatten) ∧
    ∀ (w : Lasso) (i : Nat) (fs : List Formula),
      (w.holdsAt (conj fs) i = true ↔ ∀ f ∈ fs, w.holdsAt f i = true) ∧
      (w.holdsAt (disj fs) i = true ↔ ∃ f ∈ fs, w.holdsAt f i = true) := by
  refine ⟨?_, fun _ _ => join_map_join, fun w i fs => ⟨w.holdsAt_conj i fs, w.holdsAt_disj i fs⟩⟩
  intro k fs gs hfs hgs hfsvalid hgsvalid
  refine ⟨join_eq_join_iff hfs hgs hfsvalid hgsvalid, join_congr_mem, ?_⟩
  have hgroups : join k ([fs, gs].map (join k)) = join k [fs, gs].flatten := by
    apply join_map_join
    · simp [hfs, hgs]
    · simpa using ⟨hfsvalid, hgsvalid⟩
  simpa using hgroups

theorem join_canonical_nested :
    let p := proposition "p"
    let q := proposition "q"
    let fs := [junction .and [p, q], always p]
    let gs := [q, always p, p, q]
    let groups := [[q, p], fs, [always p]]
    (fs ≠ [] ∧ gs ≠ [] ∧ (∀ f ∈ fs, f.IsValid) ∧ (∀ g ∈ gs, g.IsValid) ∧
      operandSet .and fs = operandSet .and gs ∧
      join .and [join .and fs, join .and gs] = join .and (fs ++ gs)) ∧
    (∀ group ∈ groups, group ≠ []) ∧ (∀ group ∈ groups, ∀ f ∈ group, f.IsValid) ∧
      join .and (groups.map (join .and)) = join .and groups.flatten := by
  intro p q fs gs groups
  have hfs : fs ≠ [] := List.cons_ne_nil _ _
  have hgs : gs ≠ [] := List.cons_ne_nil _ _
  have hfsvalid : ∀ f ∈ fs, f.IsValid := by decide
  have hgsvalid : ∀ g ∈ gs, g.IsValid := by decide
  have hgroups : ∀ group ∈ groups, group ≠ [] := by decide
  have hgroupsvalid : ∀ group ∈ groups, ∀ f ∈ group, f.IsValid := by decide
  have hcanonical := join_canonical.1 .and fs gs hfs hgs hfsvalid hgsvalid
  exact ⟨⟨hfs, hgs, hfsvalid, hgsvalid, hcanonical.1.mp rfl, hcanonical.2.2⟩, hgroups,
    hgroupsvalid, join_canonical.2.1 .and groups hgroups hgroupsvalid⟩

end Formula
end LinearTemporal

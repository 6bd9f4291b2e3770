import Mathlib.Data.Set.Lattice
import Mathlib.Order.CompletePartialOrder
import Mathlib.Order.Lattice.Nat
import LinearTemporal.Proofs.NormalForm

/-!
# What a formula extends to

The temporal depth of a formula and the names that occur in it come about in the same way:
leaves have a value, operators join the values of their operands, and temporal operators
raise what is joined.  No law of any group makes such a value greater, whatever it drops,
merges or moves, so a simplification nests temporal operators no more deeply than the formula
it was given and brings in no name.
-/

namespace LinearTemporal
namespace Formula

/-!
## Extents

The value of an operator is never below that of its parts, and a constant has none.
-/

/-- A value of formulas that is joined over operands, does not see negations, and is raised
in one way by all temporal operators. -/
structure IsExtent {α : Type} [SemilatticeSup α] [OrderBot α] (m : Formula → α)
    (raise : α → α) : Prop where
  const : ∀ value, m (const value) = ⊥
  literal : ∀ name negated, m (literal name (!negated)) = m (literal name negated)
  atom : ∀ left op right, m (atom left op.negate right) = m (atom left op right)
  not : ∀ f, m (not f) = m f
  next : ∀ f, m (next f) = raise (m f)
  always : ∀ f, m (always f) = raise (m f)
  eventually : ∀ f, m (eventually f) = raise (m f)
  untl : ∀ f g, m (untl f g) = raise (m f ⊔ m g)
  release : ∀ f g, m (release f g) = raise (m f ⊔ m g)
  junction : ∀ {k fs a}, m (junction k fs) ≤ a ↔ ∀ f ∈ fs, m f ≤ a
  le_raise : ∀ a, a ≤ raise a
  raise_sup : ∀ a b, raise (a ⊔ b) = raise a ⊔ raise b

namespace IsExtent

variable {α : Type} [SemilatticeSup α] [OrderBot α] {m : Formula → α} {raise : α → α}
  (hm : IsExtent m raise) {k : Connective}

include hm

theorem raise_mono {a b : α} (h : a ≤ b) : raise a ≤ raise b := by
  rw [← sup_eq_right.mpr h, hm.raise_sup]
  exact le_sup_left

theorem raise_sup_mono {a b c d : α} (hac : a ≤ c) (hbd : b ≤ d) :
    raise (a ⊔ b) ≤ raise (c ⊔ d) :=
  hm.raise_mono (sup_le_sup hac hbd)

theorem le_junction {fs : List Formula} {f : Formula} (hf : f ∈ fs) :
    m f ≤ m (Formula.junction k fs) :=
  hm.junction.mp (le_refl _) f hf

theorem raise_le_of_isBinary {op : Formula → Formula → Formula} (hop : Formula.IsBinary op)
    (f g : Formula) : raise (m f ⊔ m g) ≤ m (op f g) := by
  cases hop with
  | untl => exact le_of_eq (hm.untl f g).symm
  | release => exact le_of_eq (hm.release f g).symm

theorem le_of_isUnary {op : Formula → Formula} (hop : Formula.IsUnary op) (f : Formula) :
    m f ≤ m (op f) := by
  cases hop with
  | not => exact le_of_eq (hm.not f).symm
  | next => exact le_of_le_of_eq (hm.le_raise _) (hm.next f).symm
  | always => exact le_of_le_of_eq (hm.le_raise _) (hm.always f).symm
  | eventually => exact le_of_le_of_eq (hm.le_raise _) (hm.eventually f).symm

theorem le_of_mem_children {f g : Formula} (hg : g ∈ f.children) : m g ≤ m f := by
  cases f.arity with
  | leaf hleaf =>
      rw [hleaf] at hg
      cases hg
  | unary hop body =>
      rw [hop.children] at hg
      rcases List.mem_singleton.mp hg with rfl
      exact hm.le_of_isUnary hop _
  | binary hop left right =>
      rw [hop.children] at hg
      have hraised := hm.raise_le_of_isBinary hop left right
      rcases List.mem_pair.mp hg with rfl | rfl
      · exact le_trans (le_trans le_sup_left (hm.le_raise _)) hraised
      · exact le_trans (le_trans le_sup_right (hm.le_raise _)) hraised
  | junction k fs => exact hm.le_junction hg

theorem const_le (value : Bool) (a : α) : m (Formula.const value) ≤ a := by
  rw [hm.const]
  exact bot_le

theorem negated (f : Formula) : m f.negated = m f := by
  cases f with
  | const value => exact (hm.const _).trans (hm.const value).symm
  | literal name negated => exact hm.literal name negated
  | atom left op right => exact hm.atom left op right
  | not body => exact (hm.not body).symm
  | next | always | eventually | untl | release | junction => exact hm.not _

/-!
## Joining

Operands may be dropped, and others put in their place that do not exceed the whole.
Raising the operands one by one, if there are any, is enough to raise their junction.
-/

theorem join_le {fs : List Formula} {a : α} (h : ∀ f ∈ fs, m f ≤ a) :
    m (join k fs) ≤ a := by
  have hoperands : ∀ g ∈ joinOperands k fs, m g ≤ a :=
    forall_joinOperands (fun f hf g hg => le_trans (hm.le_of_mem_children hg) hf) h
  rw [join_eq_collapse]
  match hshape : joinOperands k fs with
  | [] => exact hm.const_le _ _
  | [f] =>
      rw [hshape] at hoperands
      exact hoperands f List.mem_cons_self
  | f :: g :: gs =>
      rw [hshape] at hoperands
      exact hm.junction.mpr hoperands

theorem join_filter_le (fs : List Formula) (p : Formula → Bool) :
    m (join k (fs.filter p)) ≤ m (Formula.junction k fs) :=
  hm.join_le fun _ hf => hm.le_junction (List.mem_filter.mp hf).1

theorem join_replace_le {fs : List Formula} {p : Formula → Bool} {g : Formula}
    (hg : m g ≤ m (Formula.junction k fs)) :
    m (join k (fs.filter p ++ [g])) ≤ m (Formula.junction k fs) := by
  apply hm.join_le
  intro f hf
  rcases List.mem_append.mp hf with hf | hf
  · exact hm.le_junction (List.mem_filter.mp hf).1
  · rcases List.mem_singleton.mp hf with rfl
    exact hg

theorem raise_join_le {fs : List Formula} (hne : fs ≠ []) {a : α}
    (h : ∀ f ∈ fs, raise (m f) ≤ a) : raise (m (join k fs)) ≤ a := by
  have hbound : ∃ b, (∀ f ∈ fs, m f ≤ b) ∧ raise b ≤ a := by
    induction fs with
    | nil => exact absurd rfl hne
    | cons f fs ih =>
        rcases List.forall_mem_cons.mp h with ⟨hf, hfs⟩
        by_cases hnil : fs = []
        · refine ⟨m f, ?_, hf⟩
          rw [hnil]
          intro g hg
          rcases List.mem_singleton.mp hg with rfl
          exact le_refl _
        · rcases ih hnil hfs with ⟨b, hle, hb⟩
          refine ⟨m f ⊔ b, ?_, ?_⟩
          · rw [List.forall_mem_cons]
            exact ⟨le_sup_left, fun g hg => le_trans (hle g hg) le_sup_right⟩
          · rw [hm.raise_sup]
            exact sup_le hf hb
  rcases hbound with ⟨b, hle, hb⟩
  exact le_trans (hm.raise_mono (hm.join_le hle)) hb

theorem isCongruence : IsCongruence (fun f g => m g ≤ m f) where
  refl f := le_refl _
  not := by
    intro f g h
    rw [hm.not, hm.not]
    exact h
  next := by
    intro f g h
    rw [hm.next, hm.next]
    exact hm.raise_mono h
  always := by
    intro f g h
    rw [hm.always, hm.always]
    exact hm.raise_mono h
  eventually := by
    intro f g h
    rw [hm.eventually, hm.eventually]
    exact hm.raise_mono h
  untl := by
    intro f f' g g' hf hg
    rw [hm.untl, hm.untl]
    exact hm.raise_sup_mono hf hg
  release := by
    intro f f' g g' hf hg
    rw [hm.release, hm.release]
    exact hm.raise_sup_mono hf hg
  junction := by
    intro k fs change hchange
    apply hm.join_le
    intro g hg
    rcases List.mem_map.mp hg with ⟨f, hf, rfl⟩
    exact le_trans (hchange f hf) (hm.le_junction hf)

end IsExtent

end Formula

/-!
## No law extends a formula

Each group on its own; merging and moving an operator raise the same operands as before.
-/

namespace Rule

open Formula

section

variable {α : Type} [SemilatticeSup α] [OrderBot α] {m : Formula → α} {raise : α → α}
  (hm : IsExtent m raise) {f g : Formula}

include hm

theorem PropositionalStep.extent_le (h : PropositionalStep f g) : m g ≤ m f := by
  cases h with
  | negatedConst | absorbing | complementary => exact hm.const_le _ _
  | neutral => exact hm.join_filter_le _ _
  | doubleNegation => rw [hm.not, hm.not]
  | negatedLiteral => rw [hm.not, hm.literal]
  | negatedAtom => rw [hm.not, hm.atom]

theorem Distributes.extent {k : Connective} {body? : Formula → Option Formula}
    {wrap : Formula → Formula} (h : Distributes k body? wrap) (body : Formula) :
    m (wrap body) = raise (m body) := by
  cases h with
  | always => exact hm.always body
  | eventually => exact hm.eventually body
  | next => exact hm.next body

theorem ModalStep.extent_le (h : ModalStep f g) : m g ≤ m f := by
  cases h with
  | pushJunction k fs =>
      rw [hm.not]
      apply hm.join_le
      intro g hg
      rcases List.mem_map.mp hg with ⟨f, hf, rfl⟩
      rw [hm.negated]
      exact hm.le_junction hf
  | pushNext => rw [hm.not, hm.next, hm.next, hm.negated]
  | pushAlways => rw [hm.not, hm.always, hm.eventually, hm.negated]
  | pushEventually => rw [hm.not, hm.always, hm.eventually, hm.negated]
  | pushUntl => rw [hm.not, hm.untl, hm.release, hm.negated, hm.negated]
  | pushRelease => rw [hm.not, hm.untl, hm.release, hm.negated, hm.negated]
  | nextConst | alwaysConst | eventuallyConst | untlConst | releaseConst => exact hm.const_le _ _
  | untlFalse | untlSame | releaseTrue | releaseSame =>
      exact hm.le_of_mem_children (List.mem_cons_of_mem _ List.mem_cons_self)
  | untlTrue =>
      rw [hm.eventually, hm.untl]
      exact hm.raise_mono le_sup_right
  | releaseFalse =>
      rw [hm.always, hm.release]
      exact hm.raise_mono le_sup_right
  | nextInvariant | alwaysInvariant | eventuallyInvariant | alwaysAlways | eventuallyEventually =>
      exact hm.le_of_mem_children List.mem_cons_self
  | @merge k body? wrap fs hwrap hcount =>
      apply hm.join_replace_le
      rw [hwrap.extent hm]
      apply hm.raise_join_le (List.ne_nil_of_length_pos (Nat.lt_of_succ_lt hcount))
      intro body hbody
      rcases List.mem_filterMap.mp hbody with ⟨f, hf, hfbody⟩
      rw [← hwrap.extent hm, ← hwrap.eq_some_iff.mp hfbody]
      exact hm.le_junction hf

theorem Trimmed.extent_le {k : Connective} {siblings : List Formula}
    (h : Trimmed k siblings f g) : m g ≤ m f := by
  cases h with
  | kept => exact le_refl _
  | shrunk =>
      apply hm.join_le
      intro g hg
      have hoperand : g ∈ f.operandsUnder k := (List.mem_filter.mp hg).1
      cases hk : f.isJunction k with
      | true =>
          rw [eq_junction_of_isJunction hk]
          exact hm.le_junction hoperand
      | false =>
          rw [operandsUnder_of_isJunction_eq_false hk] at hoperand
          rcases List.mem_singleton.mp hoperand with rfl
          exact le_refl _

theorem extent_le_of_trimmed {k : Connective} {siblings nested trimmed : List Formula}
    (h : List.Forall₂ (Trimmed k siblings) nested trimmed) {a : α}
    (hnested : ∀ f ∈ nested, m f ≤ a) : ∀ f ∈ trimmed, m f ≤ a := by
  induction h with
  | nil => exact hnested
  | cons hf _ ih =>
      rw [List.forall_mem_cons] at hnested ⊢
      exact ⟨le_trans (hf.extent_le hm) hnested.1, ih hnested.2⟩

theorem SubsumptionStep.extent_le (h : SubsumptionStep f g) : m g ≤ m f := by
  cases h with
  | dropRedundant | dropNested => exact hm.join_filter_le _ _
  | trimNested hnested _ htrimmed =>
      apply hm.join_replace_le
      refine le_trans (hm.join_le ?_) (hm.le_junction hnested)
      exact extent_le_of_trimmed hm htrimmed fun f hf => hm.le_junction hf
  | untlImplied | releaseImplied =>
      exact hm.le_of_mem_children (List.mem_cons_of_mem _ List.mem_cons_self)
  | eventuallyUntl left right =>
      rw [hm.eventually, hm.eventually]
      apply hm.raise_mono
      exact hm.le_of_mem_children (List.mem_cons_of_mem _ List.mem_cons_self)
  | alwaysRelease left right =>
      rw [hm.always, hm.always]
      apply hm.raise_mono
      exact hm.le_of_mem_children (List.mem_cons_of_mem _ List.mem_cons_self)

theorem NextStep.extent_le (h : NextStep f g) (hf : f.IsValid) : m g ≤ m f := by
  cases h with
  | not => rw [hm.not, hm.next, hm.next, hm.not]
  | always => rw [hm.always, hm.next, hm.next, hm.always]
  | eventually => rw [hm.eventually, hm.next, hm.next, hm.eventually]
  | untl => rw [hm.untl, hm.next, hm.next, hm.next, hm.untl, ← hm.raise_sup]
  | release => rw [hm.release, hm.next, hm.next, hm.next, hm.release, ← hm.raise_sup]
  | junction k bodies =>
      have hlength := (isValid_junction.mp hf).1
      rw [List.length_map] at hlength
      rw [hm.next]
      apply hm.raise_join_le (List.ne_nil_of_length_pos (Nat.lt_of_succ_lt hlength))
      intro body hbody
      rw [← hm.next]
      exact hm.le_junction (List.mem_map_of_mem hbody)

theorem Step.extent_le (h : Step f g) (hf : f.IsValid) : m g ≤ m f := by
  cases h with
  | propositional h => exact h.extent_le hm
  | modal h => exact h.extent_le hm
  | subsumption h => exact h.extent_le hm
  | nextFloating h => exact h.extent_le hm hf

end

end Rule

namespace Simplifier

/-- A simplification does not extend a formula. -/
theorem extent_run_le {α : Type} [SemilatticeSup α] [OrderBot α] {m : Formula → α}
    {raise : α → α} (hm : Formula.IsExtent m raise) (s : Simplifier) {f : Formula}
    (hf : f.IsValid) : m (s.run f).1 ≤ m f := by
  have hrespects : Simplification.Respects s.strategy.rules
      (fun f g => f.IsValid → g.IsValid ∧ m g ≤ m f) :=
    Simplification.respects_ofValid hm.isCongruence (fun hfg hgh => le_trans hgh hfg)
      fun hrule htransform hf => (Rule.Step.of_transform hrule htransform).extent_le hm hf
  exact (hrespects.run f hf).2

end Simplifier

/-!
## Temporal depth and names

The depth is a number and is raised by one, a set of names is not raised at all.
-/

namespace Formula

theorem temporalDepthAll_le_iff {fs : List Formula} {n : Nat} :
    temporalDepthAll fs ≤ n ↔ ∀ f ∈ fs, f.temporalDepth ≤ n := by
  induction fs with
  | nil => simp [temporalDepthAll]
  | cons f fs ih => simp [temporalDepthAll, ih]

theorem isExtent_temporalDepth : IsExtent temporalDepth (· + 1) where
  const _ := rfl
  literal _ _ := rfl
  atom _ _ _ := rfl
  not _ := rfl
  next _ := rfl
  always _ := rfl
  eventually _ := rfl
  untl _ _ := rfl
  release _ _ := rfl
  junction := temporalDepthAll_le_iff
  le_raise n := Nat.le_succ n
  raise_sup a b := (Nat.succ_max_succ a b).symm

theorem setOf_mem_flatMap_le_iff {names : Formula → List String} {fs : List Formula}
    {a : Set String} :
    {name | name ∈ fs.flatMap names} ≤ a ↔ ∀ f ∈ fs, {name | name ∈ names f} ≤ a := by
  constructor
  · intro h f hf name hname
    exact h (List.mem_flatMap.mpr ⟨f, hf, hname⟩)
  · intro h name hname
    rcases List.mem_flatMap.mp hname with ⟨f, hf, hname⟩
    exact h f hf hname

theorem isExtent_propositionNames :
    IsExtent (fun f => {name | name ∈ f.propositionNames}) id where
  const _ := by simp [propositionNames]
  literal _ _ := rfl
  atom _ _ _ := rfl
  not _ := rfl
  next _ := rfl
  always _ := rfl
  eventually _ := rfl
  untl _ _ := Set.ext fun _ => List.mem_append
  release _ _ := Set.ext fun _ => List.mem_append
  junction := by
    intro k fs a
    simp only [propositionNames, propositionNamesAll_eq_flatMap]
    exact setOf_mem_flatMap_le_iff
  le_raise a := le_refl a
  raise_sup _ _ := rfl

theorem isExtent_variableNames : IsExtent (fun f => {name | name ∈ f.variableNames}) id where
  const _ := by simp [variableNames]
  literal _ _ := rfl
  atom _ _ _ := rfl
  not _ := rfl
  next _ := rfl
  always _ := rfl
  eventually _ := rfl
  untl _ _ := Set.ext fun _ => List.mem_append
  release _ _ := Set.ext fun _ => List.mem_append
  junction := by
    intro k fs a
    simp only [variableNames, variableNamesAll_eq_flatMap]
    exact setOf_mem_flatMap_le_iff
  le_raise a := le_refl a
  raise_sup _ _ := rfl

end Formula

namespace Simplifier

open Formula

variable (s : Simplifier) {f : Formula} (hf : f.IsValid)

include hf

theorem temporalDepth_run_le : (s.run f).1.temporalDepth ≤ f.temporalDepth :=
  s.extent_run_le isExtent_temporalDepth hf

theorem propositionNames_run_subset : (s.run f).1.propositionNames ⊆ f.propositionNames :=
  s.extent_run_le isExtent_propositionNames hf

theorem variableNames_run_subset : (s.run f).1.variableNames ⊆ f.variableNames :=
  s.extent_run_le isExtent_variableNames hf

theorem names_run_subset : (s.run f).1.names ⊆ f.names :=
  List.append_subset.mpr
    ⟨List.Subset.trans (s.propositionNames_run_subset hf) (List.subset_append_left _ _),
      List.Subset.trans (s.variableNames_run_subset hf) (List.subset_append_right _ _)⟩

end Simplifier

end LinearTemporal

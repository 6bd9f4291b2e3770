import LinearTemporal.Proofs.CanonicalShape
import LinearTemporal.Proofs.LassoEvaluation

/-!
# Equivalent formulas

Two formulas are equivalent if they hold at the same positions of all infinite
words.  Equivalence is respected by every operator, and joining a junction anew
does not change what it means.

A junction is decided by any operand that takes the value of its absorbing
constant.  Stated in terms of deciding, laws about conjunctions and their duals
about disjunctions are one law about a connective.
-/

namespace LinearTemporal
namespace Formula

/-!
## Deciding a junction

What decides a junction decides any other one with the same connective that it is an
operand of, so flattening and dropping repetitions change nothing.
-/

/-- At this position the formula settles any junction with connective `k` that it is
an operand of. -/
def Decides (k : Connective) (word : Nat → State) (f : Formula) (i : Nat) : Prop :=
  match k with
  | .and => ¬ f.Holds word i
  | .or => f.Holds word i

variable {word : Nat → State} {k : Connective} {i : Nat}

theorem decides_dual {f : Formula} : f.Decides k.dual word i ↔ ¬ f.Decides k word i := by
  cases k with
  | and => exact Classical.not_not.symm
  | or => exact Iff.rfl

theorem decides_not {f : Formula} : (not f).Decides k word i ↔ ¬ f.Decides k word i := by
  cases k with
  | and => exact not_congr holds_not
  | or => exact holds_not

theorem decides_const {value : Bool} :
    (const value).Decides k word i ↔ value = k.absorbing := by
  cases k with
  | and =>
      show ¬ (const value).Holds word i ↔ value = false
      rw [holds_const, Bool.not_eq_true]
  | or =>
      show (const value).Holds word i ↔ value = true
      exact holds_const

theorem decides_next {f : Formula} : (next f).Decides k word i ↔ f.Decides k word (i + 1) := by
  cases k with
  | and => exact not_congr holds_next
  | or => exact holds_next

theorem decides_junction {fs : List Formula} :
    (junction k fs).Decides k word i ↔ ∃ f ∈ fs, f.Decides k word i := by
  cases k with
  | and =>
      show ¬ (junction .and fs).Holds word i ↔ ∃ f ∈ fs, ¬ f.Holds word i
      rw [holds_and]
      constructor
      · intro h
        apply Classical.byContradiction
        intro hnone
        apply h
        intro f hf
        apply Classical.byContradiction
        intro hnot
        exact hnone ⟨f, hf, hnot⟩
      · intro hexists h
        rcases hexists with ⟨f, hf, hnot⟩
        exact hnot (h f hf)
  | or => exact holds_or

theorem exists_decides_operandsUnder {f : Formula} :
    (∃ g ∈ f.operandsUnder k, g.Decides k word i) ↔ f.Decides k word i := by
  cases hk : f.isJunction k with
  | true =>
      rw [← decides_junction, ← eq_junction_of_isJunction hk]
  | false =>
      rw [operandsUnder_of_isJunction_eq_false hk]
      simp

theorem decides_collapse {fs : List Formula} :
    (collapse k fs).Decides k word i ↔ ∃ f ∈ fs, f.Decides k word i := by
  match fs with
  | [] =>
      show (const k.neutral).Decides k word i ↔ _
      rw [decides_const]
      simp [Connective.absorbing]
  | [f] => simp [collapse]
  | f :: g :: fs => exact decides_junction

theorem decides_join {fs : List Formula} :
    (join k fs).Decides k word i ↔ ∃ f ∈ fs, f.Decides k word i := by
  rw [join_eq_collapse, decides_collapse]
  constructor
  · intro hexists
    rcases hexists with ⟨g, hg, hdecides⟩
    rcases mem_joinOperands.mp hg with ⟨f, hf, hgf⟩
    exact ⟨f, hf, exists_decides_operandsUnder.mp ⟨g, hgf, hdecides⟩⟩
  · intro hexists
    rcases hexists with ⟨f, hf, hdecides⟩
    rcases exists_decides_operandsUnder.mpr hdecides with ⟨g, hgf, hg⟩
    exact ⟨g, mem_joinOperands.mpr ⟨f, hf, hgf⟩, hg⟩

theorem holds_conj {fs : List Formula} :
    (conj fs).Holds word i ↔ ∀ f ∈ fs, f.Holds word i := by
  have hdecides : (conj fs).Decides .and word i ↔ ∃ f ∈ fs, f.Decides .and word i := decides_join
  simpa [Decides] using not_congr hdecides

theorem holds_disj {fs : List Formula} :
    (disj fs).Holds word i ↔ ∃ f ∈ fs, f.Holds word i :=
  decides_join (k := .or)

/-!
## Equivalence

It is enough to compare what decides junctions with one connective, since the other one
is its dual.
-/

def Equivalent (f g : Formula) : Prop :=
  ∀ word i, f.Holds word i ↔ g.Holds word i

namespace Equivalent

theorem refl (f : Formula) : Equivalent f f :=
  fun _ _ => Iff.rfl

theorem trans {f g h : Formula} (hfg : Equivalent f g) (hgh : Equivalent g h) :
    Equivalent f h :=
  fun word i => (hfg word i).trans (hgh word i)

theorem decides {f g : Formula} (h : Equivalent f g) :
    f.Decides k word i ↔ g.Decides k word i := by
  cases k with
  | and => exact not_congr (h word i)
  | or => exact h word i

end Equivalent

theorem equivalent_of_decides (k : Connective) {f g : Formula}
    (h : ∀ word i, f.Decides k word i ↔ g.Decides k word i) : Equivalent f g := by
  intro word i
  cases k with
  | and => exact not_iff_not.mp (h word i)
  | or => exact h word i

theorem isCongruence_equivalent : IsCongruence Equivalent where
  refl := Equivalent.refl
  not := by
    intro f g h word i
    rw [holds_not, holds_not, h word i]
  next := by
    intro f g h word i
    rw [holds_next, holds_next, h word (i + 1)]
  always := by
    intro f g h word i
    rw [holds_always, holds_always]
    exact forall_congr' fun j => imp_congr_right fun _ => h word j
  eventually := by
    intro f g h word i
    rw [holds_eventually, holds_eventually]
    exact exists_congr fun j => and_congr_right fun _ => h word j
  untl := by
    intro f f' g g' hf hg word i
    rw [holds_untl_iff_untilFrom, holds_untl_iff_untilFrom]
    exact untilFrom_congr (fun d => hf word (i + d)) (fun d => hg word (i + d))
  release := by
    intro f f' g g' hf hg word i
    rw [holds_release_iff_untilFrom, holds_release_iff_untilFrom]
    exact not_congr (untilFrom_congr (fun d => not_congr (hf word (i + d)))
      (fun d => not_congr (hg word (i + d))))
  junction := by
    intro k fs change hchange
    apply equivalent_of_decides k
    intro word i
    rw [decides_junction, decides_join]
    constructor
    · intro hexists
      rcases hexists with ⟨f, hf, hdecides⟩
      exact ⟨change f, List.mem_map_of_mem hf, (hchange f hf).decides.mp hdecides⟩
    · intro hexists
      rcases hexists with ⟨g, hg, hdecides⟩
      rcases List.mem_map.mp hg with ⟨f, hf, rfl⟩
      exact ⟨f, hf, (hchange f hf).decides.mpr hdecides⟩

/-- Equivalent formulas have the same value at every position of every lasso. -/
theorem Equivalent.holdsAt_eq {f g : Formula} (h : Equivalent f g) (w : Lasso) (i : Nat) :
    w.holdsAt f i = w.holdsAt g i := by
  unfold Lasso.holdsAt
  rw [Bool.eq_iff_iff, Lasso.getD_evaluate f (w.locate_lt i),
    Lasso.getD_evaluate g (w.locate_lt i)]
  exact h w.word (w.locate i)

end Formula
end LinearTemporal

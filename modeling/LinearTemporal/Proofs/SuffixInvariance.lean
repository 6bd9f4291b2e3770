import LinearTemporal.Proofs.Equivalence

/-!
# Suffix invariance

A formula is constant on a word if it has one truth value at all positions.  Every operator
keeps formulas constant, and "infinitely often" and "from some position on" are constant
whatever they are said of.  So what `isSuffixInvariant` recognises is constant on every word,
and looking ahead from a position with `next`, `always` or `eventually` changes nothing.
-/

namespace LinearTemporal
namespace Formula

/-!
## Constant formulas

For a property that is handed from any position to any other one direction is enough.
What holds infinitely often does so from every position, since the next time after two
positions is a time after either; what holds from some position on holds from every
later one on.
-/

/-- The formula has one truth value at all positions of the word. -/
def IsConstantOn (word : Nat → State) (f : Formula) : Prop :=
  ∀ i j, f.Holds word i ↔ f.Holds word j

variable {word : Nat → State}

theorem IsConstantOn.of_imp {f : Formula} (h : ∀ i j, f.Holds word i → f.Holds word j) :
    f.IsConstantOn word :=
  fun i j => ⟨h i j, h j i⟩

theorem isConstantOn_const (value : Bool) : (const value).IsConstantOn word :=
  fun _ _ => Iff.rfl

theorem isConstantOn_always_eventually (body : Formula) :
    (always (eventually body)).IsConstantOn word := by
  apply IsConstantOn.of_imp
  intro i j hi
  rw [holds_always] at hi ⊢
  intro l _
  rcases holds_eventually.mp (hi (max i l) (Nat.le_max_left i l)) with ⟨m, hm, hbody⟩
  exact holds_eventually.mpr ⟨m, Nat.le_trans (Nat.le_max_right i l) hm, hbody⟩

theorem isConstantOn_eventually_always (body : Formula) :
    (eventually (always body)).IsConstantOn word := by
  apply IsConstantOn.of_imp
  intro i j hi
  rcases holds_eventually.mp hi with ⟨m, _, hm⟩
  refine holds_eventually.mpr ⟨max m j, Nat.le_max_right m j, holds_always.mpr ?_⟩
  intro l hl
  exact holds_always.mp hm l (Nat.le_trans (Nat.le_max_left m j) hl)

namespace IsConstantOn

section

variable {f : Formula} (h : f.IsConstantOn word) {i : Nat}

include h

theorem holds_next : (next f).Holds word i ↔ f.Holds word i :=
  h (i + 1) i

theorem holds_always : (always f).Holds word i ↔ f.Holds word i := by
  rw [Formula.holds_always]
  constructor
  · intro hall
    exact hall i (Nat.le_refl i)
  · intro hi j _
    exact (h i j).mp hi

theorem holds_eventually : (eventually f).Holds word i ↔ f.Holds word i := by
  rw [Formula.holds_eventually]
  constructor
  · intro hexists
    rcases hexists with ⟨j, _, hj⟩
    exact (h j i).mp hj
  · intro hi
    exact ⟨i, Nat.le_refl i, hi⟩

theorem not : (not f).IsConstantOn word :=
  fun i j => not_congr (h i j)

theorem next : (next f).IsConstantOn word :=
  fun i j => h (i + 1) (j + 1)

theorem always : (always f).IsConstantOn word := by
  intro i j
  rw [h.holds_always, h.holds_always]
  exact h i j

theorem eventually : (eventually f).IsConstantOn word := by
  intro i j
  rw [h.holds_eventually, h.holds_eventually]
  exact h i j

end

theorem untl {left right : Formula} (hleft : left.IsConstantOn word)
    (hright : right.IsConstantOn word) : (untl left right).IsConstantOn word := by
  intro i j
  rw [holds_untl_iff_untilFrom, holds_untl_iff_untilFrom]
  exact untilFrom_congr (fun d => hleft (i + d) (j + d)) (fun d => hright (i + d) (j + d))

theorem release {left right : Formula} (hleft : left.IsConstantOn word)
    (hright : right.IsConstantOn word) : (release left right).IsConstantOn word := by
  intro i j
  rw [holds_release_iff_untilFrom, holds_release_iff_untilFrom]
  exact not_congr (untilFrom_congr (fun d => not_congr (hleft (i + d) (j + d)))
    (fun d => not_congr (hright (i + d) (j + d))))

theorem junction {k : Connective} {fs : List Formula} (h : ∀ f ∈ fs, f.IsConstantOn word) :
    (junction k fs).IsConstantOn word := by
  intro i j
  cases k with
  | and =>
      rw [holds_and, holds_and]
      exact forall₂_congr fun f hf => h f hf i j
  | or =>
      rw [holds_or, holds_or]
      exact exists_congr fun f => and_congr_right fun hf => h f hf i j

end IsConstantOn

/-!
## What is recognised

The recognised formulas are those that the lemmas above compose, so they are constant.
-/

theorem areSuffixInvariant_iff {fs : List Formula} :
    areSuffixInvariant fs = true ↔ ∀ f ∈ fs, f.isSuffixInvariant = true := by
  induction fs with
  | nil => simp [areSuffixInvariant]
  | cons f fs ih => simp [areSuffixInvariant, ih]

theorem isConstantOn_of_isSuffixInvariant {f : Formula} (h : f.isSuffixInvariant = true) :
    f.IsConstantOn word := by
  induction f using induction_on_children with
  | step f ih =>
      cases f with
      | const value => exact isConstantOn_const value
      | literal | atom => cases h
      | not body => exact (ih body (by simp [children]) h).not
      | next body => exact (ih body (by simp [children]) h).next
      | always body =>
          rcases (Bool.or_eq_true _ _).mp h with heventually | hbody
          · rcases eq_eventually_of_isEventually heventually with ⟨inner, rfl⟩
            exact isConstantOn_always_eventually inner
          · exact (ih body (by simp [children]) hbody).always
      | eventually body =>
          rcases (Bool.or_eq_true _ _).mp h with halways | hbody
          · rcases eq_always_of_isAlways halways with ⟨inner, rfl⟩
            exact isConstantOn_eventually_always inner
          · exact (ih body (by simp [children]) hbody).eventually
      | untl left right =>
          rcases (Bool.and_eq_true _ _).mp h with ⟨hleft, hright⟩
          exact (ih left (by simp [children]) hleft).untl (ih right (by simp [children]) hright)
      | release left right =>
          rcases (Bool.and_eq_true _ _).mp h with ⟨hleft, hright⟩
          exact (ih left (by simp [children]) hleft).release (ih right (by simp [children]) hright)
      | junction k fs =>
          exact IsConstantOn.junction fun f hf => ih f hf (areSuffixInvariant_iff.mp h f hf)

section

variable {f : Formula} (h : f.isSuffixInvariant = true)

include h

theorem equivalent_next_of_isSuffixInvariant : (next f).Equivalent f :=
  fun _ _ => (isConstantOn_of_isSuffixInvariant h).holds_next

theorem equivalent_always_of_isSuffixInvariant : (always f).Equivalent f :=
  fun _ _ => (isConstantOn_of_isSuffixInvariant h).holds_always

theorem equivalent_eventually_of_isSuffixInvariant : (eventually f).Equivalent f :=
  fun _ _ => (isConstantOn_of_isSuffixInvariant h).holds_eventually

end

end Formula

namespace Lasso

open Formula

/-- What `isSuffixInvariant` recognises has one truth value at all positions of a lasso, and
keeps it under the temporal operators with one operand. -/
theorem holdsAt_of_isSuffixInvariant {f : Formula} (h : f.isSuffixInvariant = true) (w : Lasso)
    (i j : Nat) :
    w.holdsAt f i = w.holdsAt f j ∧
    w.holdsAt (next f) i = w.holdsAt f i ∧
    w.holdsAt (eventually f) i = w.holdsAt f i ∧
    w.holdsAt (always f) i = w.holdsAt f i := by
  refine ⟨?_, (equivalent_next_of_isSuffixInvariant h).holdsAt_eq w i,
    (equivalent_eventually_of_isSuffixInvariant h).holdsAt_eq w i,
    (equivalent_always_of_isSuffixInvariant h).holdsAt_eq w i⟩
  rw [Bool.eq_iff_iff, holdsAt_iff_holds_word, holdsAt_iff_holds_word]
  exact isConstantOn_of_isSuffixInvariant h i j

theorem holdsAt_of_isSuffixInvariant_until :
    let f : Formula := .untl (.always (.eventually (.literal "p" false)))
      (.junction .and [.not (.eventually (.always (.atom (.var "x") .lt (.int 3)))),
        .always (.eventually (.literal "q" true))])
    let w : Lasso := ⟨[.ofPropositions ["p"]], [(State.ofPropositions []).assign "x" 4,
      .ofPropositions ["p"]], List.cons_ne_nil _ _⟩
    f.isSuffixInvariant = true ∧ w.holdsAt f 0 = w.holdsAt f 3 ∧
      w.holdsAt (next f) 0 = w.holdsAt f 0 ∧ w.holdsAt (eventually f) 0 = w.holdsAt f 0 ∧
      w.holdsAt (always f) 0 = w.holdsAt f 0 := by
  intro f w
  have hinvariant : f.isSuffixInvariant = true := rfl
  exact ⟨hinvariant, holdsAt_of_isSuffixInvariant hinvariant w 0 3⟩

end Lasso
end LinearTemporal

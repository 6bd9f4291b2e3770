import LinearTemporal.Proofs.Equivalence
import LinearTemporal.Rule.Entailment

/-!
# Syntactic entailment as a proof system

`implies` searches for a derivation in a small proof system.  The rules of that
system are listed here one by one; the search succeeds exactly if there is a
derivation, and every rule is sound at every position of every word.
-/

namespace LinearTemporal
namespace Formula

/-!
## Derivations

The search misses no derivation, since each rule is one of its alternatives.
-/

inductive Entails : Formula → Formula → Prop where
  | refl (f : Formula) : Entails f f
  | toTrue (f : Formula) : Entails f (const true)
  | ofFalse (g : Formula) : Entails (const false) g
  | orRight {f g gs} : g ∈ gs → Entails f g → Entails f (junction .or gs)
  | andRight {f gs} : (∀ g ∈ gs, Entails f g) → Entails f (junction .and gs)
  | andLeft {f fs g} : f ∈ fs → Entails f g → Entails (junction .and fs) g
  | orLeft {fs g} : (∀ f ∈ fs, Entails f g) → Entails (junction .or fs) g
  | alwaysLeft {body g} : Entails body g → Entails (always body) g
  | alwaysNext {body later} : Entails (always body) later → Entails (always body) (next later)
  | next {body body'} : Entails body body' → Entails (next body) (next body')
  | always {body body'} : Entails (always body) body' → Entails (always body) (always body')
  | eventuallyRight {f body} : Entails f body → Entails f (eventually body)
  | eventually {body body'} : Entails body body' → Entails (eventually body) (eventually body')
  | untlRight {f left right} : Entails f right → Entails f (untl left right)
  | releaseRight {f left right} : Entails f right → Entails f left → Entails f (release left right)
  | releaseAlways {body left right} : Entails (always body) right →
      Entails (always body) (release left right)
  | untlLeft {left right g} : Entails left g → Entails right g → Entails (untl left right) g
  | releaseLeft {left right g} : Entails right g → Entails (release left right) g

theorem eq_const_true_of_isTrue {f : Formula} (h : f.isTrue = true) : f = const true := by
  cases f with
  | const value => simpa [isTrue, constant?] using h
  | _ => cases h

theorem eq_const_false_of_isFalse {f : Formula} (h : f.isFalse = true) : f = const false := by
  cases f with
  | const value => simpa [isFalse, constant?] using h
  | _ => cases h

theorem entails_of_implies {f g : Formula} (h : f.implies g = true) : Entails f g := by
  induction hsize : f.size + g.size using Nat.strongRecOn generalizing f g with
  | ind n ih =>
      have smaller : ∀ {f' g' : Formula}, f'.size + g'.size < f.size + g.size →
          f'.implies g' = true → Entails f' g' :=
        fun hlt h' => ih _ (by omega) h' rfl
      rw [implies.eq_def] at h
      simp only [Bool.or_eq_true, decide_eq_true_eq] at h
      rcases h with (((((heq | htrue) | hfalse) | hright) | hleft) | hoperator) | hchoice
      · rw [heq]
        exact Entails.refl g
      · rw [eq_const_true_of_isTrue htrue]
        exact Entails.toTrue f
      · rw [eq_const_false_of_isFalse hfalse]
        exact Entails.ofFalse g
      · split at hright
        · rename_i gs
          rcases List.any_eq_true.mp hright with ⟨⟨g, hg⟩, _, himplies⟩
          have hle := size_le_sizeAll hg
          exact Entails.orRight hg (smaller (by simp only [size]; omega) himplies)
        · rename_i gs
          apply Entails.andRight
          intro g hg
          have hle := size_le_sizeAll hg
          exact smaller (by simp only [size]; omega)
            (List.all_eq_true.mp hright ⟨g, hg⟩ (List.mem_attach gs _))
        · cases hright
      · split at hleft
        · rename_i fs
          rcases List.any_eq_true.mp hleft with ⟨⟨f, hf⟩, _, himplies⟩
          have hle := size_le_sizeAll hf
          exact Entails.andLeft hf (smaller (by simp only [size]; omega) himplies)
        · rename_i fs
          apply Entails.orLeft
          intro f hf
          have hle := size_le_sizeAll hf
          exact smaller (by simp only [size]; omega)
            (List.all_eq_true.mp hleft ⟨f, hf⟩ (List.mem_attach fs _))
        · exact Entails.alwaysLeft (smaller (by simp only [size]; omega) hleft)
        · cases hleft
      · split at hoperator
        · rename_i later
          rcases (Bool.or_eq_true _ _).mp hoperator with halways | hnext
          · rcases (Bool.and_eq_true _ _).mp halways with ⟨hf, himplies⟩
            rcases eq_always_of_isAlways hf with ⟨body, rfl⟩
            exact Entails.alwaysNext (smaller (by simp only [size]; omega) himplies)
          · split at hnext
            · exact Entails.next (smaller (by simp only [size]; omega) hnext)
            · cases hnext
        · rename_i body
          rcases (Bool.and_eq_true _ _).mp hoperator with ⟨hf, himplies⟩
          rcases eq_always_of_isAlways hf with ⟨body', rfl⟩
          exact Entails.always (smaller (by simp only [size]; omega) himplies)
        · rename_i body
          rcases (Bool.or_eq_true _ _).mp hoperator with hbody | heventually
          · exact Entails.eventuallyRight (smaller (by simp only [size]; omega) hbody)
          · split at heventually
            · exact Entails.eventually (smaller (by simp only [size]; omega) heventually)
            · cases heventually
        · exact Entails.untlRight (smaller (by simp only [size]; omega) hoperator)
        · rename_i left right
          rcases (Bool.and_eq_true _ _).mp hoperator with ⟨hright, hchoice⟩
          have hentails := smaller (by simp only [size]; omega) hright
          rcases (Bool.or_eq_true _ _).mp hchoice with hf | hleft
          · rcases eq_always_of_isAlways hf with ⟨body, rfl⟩
            exact Entails.releaseAlways hentails
          · exact Entails.releaseRight hentails (smaller (by simp only [size]; omega) hleft)
        · cases hoperator
      · split at hchoice
        · rcases (Bool.and_eq_true _ _).mp hchoice with ⟨hleft, hright⟩
          exact Entails.untlLeft (smaller (by simp only [size]; omega) hleft)
            (smaller (by simp only [size]; omega) hright)
        · exact Entails.releaseLeft (smaller (by simp only [size]; omega) hchoice)
        · cases hchoice

theorem implies_of_entails {f g : Formula} (h : Entails f g) : f.implies g = true := by
  induction h with
  | refl | toTrue | ofFalse =>
      rw [implies.eq_def]
      simp [isTrue, isFalse, constant?]
  | @orRight f g gs hmem _ ih =>
      rw [implies.eq_def]
      simp only [Bool.or_eq_true]
      exact Or.inl (Or.inl (Or.inl (Or.inr
        (List.any_eq_true.mpr ⟨⟨g, hmem⟩, List.mem_attach gs _, ih⟩))))
  | andRight _ ih =>
      rw [implies.eq_def]
      simp only [Bool.or_eq_true]
      exact Or.inl (Or.inl (Or.inl (Or.inr
        (List.all_eq_true.mpr fun operand _ => ih operand.1 operand.2))))
  | @andLeft f fs g hmem _ ih =>
      rw [implies.eq_def]
      simp only [Bool.or_eq_true]
      exact Or.inl (Or.inl (Or.inr
        (List.any_eq_true.mpr ⟨⟨f, hmem⟩, List.mem_attach fs _, ih⟩)))
  | orLeft _ ih =>
      rw [implies.eq_def]
      simp only [Bool.or_eq_true]
      exact Or.inl (Or.inl (Or.inr
        (List.all_eq_true.mpr fun operand _ => ih operand.1 operand.2)))
  | alwaysLeft _ ih | next _ ih | eventuallyRight _ ih | eventually _ ih | untlRight _ ih
  | releaseLeft _ ih =>
      rw [implies.eq_def]
      simp only [ih, Bool.or_true, Bool.true_or]
  | alwaysNext _ ih | always _ ih | releaseAlways _ ih =>
      rw [implies.eq_def]
      simp only [ih, isAlways, Bool.and_true, Bool.or_true, Bool.true_or]
  | releaseRight _ _ ih ih' | untlLeft _ _ ih ih' =>
      rw [implies.eq_def]
      simp only [ih, ih', Bool.and_true, Bool.or_true, Bool.true_or]

theorem implies_iff_entails {f g : Formula} : f.implies g = true ↔ Entails f g :=
  ⟨entails_of_implies, implies_of_entails⟩

/-!
## Soundness

What can be derived holds wherever the formula does that it is derived from, by
induction over the derivation.
-/

theorem Entails.sound {f g : Formula} (h : Entails f g) (word : Nat → State) {i : Nat}
    (hf : f.Holds word i) : g.Holds word i := by
  induction h generalizing i with
  | refl f => exact hf
  | toTrue f => exact holds_const.mpr rfl
  | ofFalse g => cases holds_const.mp hf
  | orRight hg _ ih => exact holds_or.mpr ⟨_, hg, ih hf⟩
  | andRight _ ih => exact holds_and.mpr fun g hg => ih g hg hf
  | andLeft hmem _ ih => exact ih (holds_and.mp hf _ hmem)
  | orLeft _ ih =>
      rcases holds_or.mp hf with ⟨f, hmem, hholds⟩
      exact ih f hmem hholds
  | alwaysLeft _ ih => exact ih (holds_always.mp hf i (Nat.le_refl i))
  | alwaysNext _ ih =>
      apply holds_next.mpr
      apply ih
      intro j hj
      exact holds_always.mp hf j (Nat.le_of_succ_le hj)
  | next _ ih => exact holds_next.mpr (ih (holds_next.mp hf))
  | always _ ih =>
      apply holds_always.mpr
      intro j hij
      apply ih
      intro l hjl
      exact holds_always.mp hf l (Nat.le_trans hij hjl)
  | eventuallyRight _ ih => exact holds_eventually.mpr ⟨i, Nat.le_refl i, ih hf⟩
  | eventually _ ih =>
      rcases holds_eventually.mp hf with ⟨j, hij, hbody⟩
      exact holds_eventually.mpr ⟨j, hij, ih hbody⟩
  | untlRight _ ih =>
      rw [holds_untl_iff_untilFrom, untilFrom_iff]
      exact Or.inl (ih hf)
  | releaseRight _ _ ihright ihleft =>
      rw [holds_release_iff_untilFrom, untilFrom_iff]
      intro hcases
      rcases hcases with hright | ⟨hleft, _⟩
      · exact hright (ihright hf)
      · exact hleft (ihleft hf)
  | releaseAlways _ ih =>
      apply holds_release.mpr
      intro j hij
      apply Or.inl
      apply ih
      intro l hjl
      exact holds_always.mp hf l (Nat.le_trans hij hjl)
  | untlLeft _ _ ihleft ihright =>
      rw [holds_untl_iff_untilFrom, untilFrom_iff] at hf
      rcases hf with hright | ⟨hleft, _⟩
      · exact ihright hright
      · exact ihleft hleft
  | releaseLeft _ ih =>
      rw [holds_release_iff_untilFrom, untilFrom_iff, not_or] at hf
      exact ih (Classical.not_not.mp hf.1)

theorem holds_of_implies {f g : Formula} (h : f.implies g = true) {word : Nat → State}
    {i : Nat} (hf : f.Holds word i) : g.Holds word i :=
  (entails_of_implies h).sound word hf

end Formula

namespace Lasso

open Formula

/-- At every position of every lasso, what a formula implies holds where it does. -/
theorem holdsAt_of_implies {f g : Formula} (h : f.implies g = true) (w : Lasso) (i : Nat)
    (hf : w.holdsAt f i = true) : w.holdsAt g i = true := by
  rw [holdsAt_iff_holds_word] at hf ⊢
  exact holds_of_implies h hf

theorem holdsAt_of_implies_always :
    let p := proposition "p"
    let f := always (junction .and [p, next p])
    let g := junction .and [next p, release (proposition "q") (next p)]
    let w := Lasso.constant (State.ofPropositions ["p"])
    f.implies g = true ∧ w.holdsAt f 3 = true ∧ w.holdsAt g 3 = true := by
  intro p f g w
  have hnow : Entails f p :=
    Entails.alwaysLeft (Entails.andLeft List.mem_cons_self (Entails.refl p))
  have hlater : Entails f (next p) := Entails.alwaysNext hnow
  have himplies : f.implies g = true := by
    apply implies_of_entails
    apply Entails.andRight
    intro h hh
    rcases List.mem_pair.mp hh with rfl | rfl
    · exact hlater
    · exact Entails.releaseAlways hlater
  have hf : w.holdsAt f 3 = true := by decide
  exact ⟨himplies, hf, holdsAt_of_implies himplies w 3 hf⟩

end Lasso
end LinearTemporal

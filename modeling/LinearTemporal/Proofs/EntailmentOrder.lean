import Mathlib.Logic.Relation
import LinearTemporal.Proofs.RuleShape

/-!
# Syntactic entailment is a preorder

`implies` is incomplete, so that it is transitive does not follow from what formulas mean.
It follows from the proof system: two derivations that meet in a formula are composed by
looking at the rules that they end with.  A rule that opens the first formula or puts the
last one together can be left to the end, and what remains are rules that meet in the
middle, where one puts together what the other opens, and their premises meet in a part of
it.

Because entailment is a preorder, operands of a junction may be dropped one after another:
what made a dropped operand redundant may be dropped as well, but then it was redundant
itself, and so in the end some operand is left that stands in for both.
-/

namespace LinearTemporal
namespace Formula

/-!
## Composing derivations

Induction on the middle formula, and on the first derivation until it ends with a rule
that puts the middle formula together.  Then the second derivation is looked at: a rule
that opens the middle formula meets the one that put it together, and any other rule
puts the last formula together and is applied last.
-/

/-- Entailments that end with a rule that puts `g` together. -/
inductive Concludes : Formula → Formula → Prop where
  | toTrue (f : Formula) : Concludes f (const true)
  | orRight {f g gs} : g ∈ gs → Entails f g → Concludes f (junction .or gs)
  | andRight {f gs} : (∀ g ∈ gs, Entails f g) → Concludes f (junction .and gs)
  | alwaysNext {body later} : Entails (always body) later → Concludes (always body) (next later)
  | next {body body'} : Entails body body' → Concludes (next body) (next body')
  | always {body body'} : Entails (always body) body' → Concludes (always body) (always body')
  | eventuallyRight {f body} : Entails f body → Concludes f (eventually body)
  | eventually {body body'} : Entails body body' → Concludes (eventually body) (eventually body')
  | untlRight {f left right} : Entails f right → Concludes f (untl left right)
  | releaseRight {f left right} : Entails f right → Entails f left →
      Concludes f (release left right)
  | releaseAlways {body left right} : Entails (always body) right →
      Concludes (always body) (release left right)

theorem Concludes.entails {f g : Formula} (h : Concludes f g) : Entails f g := by
  cases h with
  | toTrue => exact Entails.toTrue f
  | orRight hmem h => exact Entails.orRight hmem h
  | andRight h => exact Entails.andRight h
  | alwaysNext h => exact Entails.alwaysNext h
  | next h => exact Entails.next h
  | always h => exact Entails.always h
  | eventuallyRight h => exact Entails.eventuallyRight h
  | eventually h => exact Entails.eventually h
  | untlRight h => exact Entails.untlRight h
  | releaseRight hright hleft => exact Entails.releaseRight hright hleft
  | releaseAlways h => exact Entails.releaseAlways h

def IsCut (g : Formula) : Prop :=
  ∀ {f h : Formula}, Entails f g → Entails g h → Entails f h

theorem Concludes.trans {f g h : Formula} (hparts : ∀ part ∈ g.children, IsCut part)
    (hfg : Concludes f g) (hgh : Entails g h) : Entails f h := by
  induction hgh with
  | refl => exact hfg.entails
  | toTrue => exact Entails.toTrue f
  | orRight hmem _ ih => exact Entails.orRight hmem (ih hparts hfg)
  | andRight _ ih => exact Entails.andRight fun h hmem => ih h hmem hparts hfg
  | eventuallyRight _ ih => exact Entails.eventuallyRight (ih hparts hfg)
  | untlRight _ ih => exact Entails.untlRight (ih hparts hfg)
  | releaseRight _ _ ihright ihleft =>
      exact Entails.releaseRight (ihright hparts hfg) (ihleft hparts hfg)
  -- From here on `g` is opened.
  | ofFalse => cases hfg
  | andLeft hmem hgh _ =>
      cases hfg with
      | andRight hall => exact hparts _ hmem (hall _ hmem) hgh
  | orLeft hall _ =>
      cases hfg with
      | orRight hmem hfg => exact hparts _ hmem hfg (hall _ hmem)
  | alwaysLeft hgh _ =>
      cases hfg with
      | always hfg => exact hparts _ List.mem_cons_self hfg hgh
  | next hgh _ =>
      cases hfg with
      | alwaysNext hfg => exact Entails.alwaysNext (hparts _ List.mem_cons_self hfg hgh)
      | next hfg => exact Entails.next (hparts _ List.mem_cons_self hfg hgh)
  | eventually hgh _ =>
      cases hfg with
      | eventuallyRight hfg =>
          exact Entails.eventuallyRight (hparts _ List.mem_cons_self hfg hgh)
      | eventually hfg => exact Entails.eventually (hparts _ List.mem_cons_self hfg hgh)
  | untlLeft _ hgh _ _ =>
      cases hfg with
      | untlRight hfg =>
          exact hparts _ (List.mem_cons_of_mem _ List.mem_cons_self) hfg hgh
  | @releaseLeft left right _ hgh _ =>
      have hright : IsCut right :=
        hparts right (List.mem_cons_of_mem left List.mem_cons_self)
      cases hfg with
      | releaseRight hfg _ => exact hright hfg hgh
      | releaseAlways hfg => exact hright hfg hgh
  -- The premise is about the same `always`, which only an `always` entails by such a rule.
  | alwaysNext _ ih =>
      have hlater := ih hparts hfg
      cases hfg with
      | always => exact Entails.alwaysNext hlater
  | always _ ih =>
      have hbody := ih hparts hfg
      cases hfg with
      | always => exact Entails.always hbody
  | releaseAlways _ ih =>
      have hright := ih hparts hfg
      cases hfg with
      | always => exact Entails.releaseAlways hright

theorem Entails.trans {f g h : Formula} (hfg : Entails f g) (hgh : Entails g h) :
    Entails f h := by
  induction g using induction_on_children generalizing f h with
  | step g ih =>
      have hparts : ∀ part ∈ g.children, IsCut part := fun part hpart => ih part hpart
      clear ih
      induction hfg with
      | refl => exact hgh
      | ofFalse => exact Entails.ofFalse h
      | andLeft hmem _ ih => exact Entails.andLeft hmem (ih hgh hparts)
      | orLeft _ ih => exact Entails.orLeft fun f hmem => ih f hmem hgh hparts
      | alwaysLeft _ ih => exact Entails.alwaysLeft (ih hgh hparts)
      | untlLeft _ _ ihleft ihright =>
          exact Entails.untlLeft (ihleft hgh hparts) (ihright hgh hparts)
      | releaseLeft _ ih => exact Entails.releaseLeft (ih hgh hparts)
      | toTrue f => exact (Concludes.toTrue f).trans hparts hgh
      | orRight hmem hfg _ => exact (Concludes.orRight hmem hfg).trans hparts hgh
      | andRight hfg _ => exact (Concludes.andRight hfg).trans hparts hgh
      | alwaysNext hfg _ => exact (Concludes.alwaysNext hfg).trans hparts hgh
      | next hfg _ => exact (Concludes.next hfg).trans hparts hgh
      | always hfg _ => exact (Concludes.always hfg).trans hparts hgh
      | eventuallyRight hfg _ => exact (Concludes.eventuallyRight hfg).trans hparts hgh
      | eventually hfg _ => exact (Concludes.eventually hfg).trans hparts hgh
      | untlRight hfg _ => exact (Concludes.untlRight hfg).trans hparts hgh
      | releaseRight hright hleft _ _ =>
          exact (Concludes.releaseRight hright hleft).trans hparts hgh
      | releaseAlways hfg _ => exact (Concludes.releaseAlways hfg).trans hparts hgh

theorem implies_refl (f : Formula) : f.implies f = true :=
  implies_of_entails (Entails.refl f)

theorem implies_trans {f g h : Formula} (hfg : f.implies g = true) (hgh : g.implies h = true) :
    f.implies h = true := by
  rw [implies_iff_entails] at hfg hgh ⊢
  exact hfg.trans hgh

end Formula

namespace Rule

open Formula

variable {k : Connective}

theorem makesRedundant_refl (k : Connective) (f : Formula) : makesRedundant k f f = true := by
  cases k with
  | and | or => exact implies_refl f

theorem makesRedundant_trans {f g h : Formula} (hfg : makesRedundant k f g = true)
    (hgh : makesRedundant k g h = true) : makesRedundant k f h = true := by
  cases k with
  | and => exact implies_trans hfg hgh
  | or => exact implies_trans hgh hfg

/-!
## Dropping operands one after another

However many operands are dropped, for each of them one is left that makes it redundant.
-/

def Drops (k : Connective) (f g : Formula) : Prop :=
  ∃ fs, f = .junction k fs ∧ dropRedundant k fs = some g

theorem drops_of_dropImpliedConjunct {f g : Formula} (h : dropImpliedConjunct f = some g) :
    Drops .and f g := by
  unfold dropImpliedConjunct at h
  split at h
  · exact ⟨_, rfl, h⟩
  · cases h

theorem drops_of_dropImplyingDisjunct {f g : Formula} (h : dropImplyingDisjunct f = some g) :
    Drops .or f g := by
  unfold dropImplyingDisjunct at h
  split at h
  · exact ⟨_, rfl, h⟩
  · cases h

/-- As junctions with connective `k`, `g` has operands of `f` only, and for every operand of
`f` one that makes it redundant. -/
structure Retains (k : Connective) (f g : Formula) : Prop where
  subset : g.operandsUnder k ⊆ f.operandsUnder k
  redundant : ∀ operand ∈ f.operandsUnder k, ∃ kept ∈ g.operandsUnder k,
    makesRedundant k kept operand = true

theorem Retains.refl (k : Connective) (f : Formula) : Retains k f f where
  subset := List.Subset.refl _
  redundant operand hoperand := ⟨operand, hoperand, makesRedundant_refl k operand⟩

theorem Retains.trans {f g h : Formula} (hfg : Retains k f g) (hgh : Retains k g h) :
    Retains k f h where
  subset := List.Subset.trans hgh.subset hfg.subset
  redundant operand hoperand := by
    rcases hfg.redundant operand hoperand with ⟨kept, hkept, hoperand⟩
    rcases hgh.redundant kept hkept with ⟨last, hlast, hkept⟩
    exact ⟨last, hlast, makesRedundant_trans hkept hoperand⟩

theorem Drops.isValid {f g : Formula} (h : Drops k f g) (hf : f.IsValid) : g.IsValid := by
  rcases h with ⟨fs, rfl, hdrop⟩
  exact (SubsumptionStep.of_dropRedundant hdrop).isValid hf

theorem Drops.retains {f g : Formula} (h : Drops k f g) (hf : f.IsValid) : Retains k f g := by
  rcases h with ⟨fs, rfl, hdrop⟩
  rcases exists_of_dropRedundant hdrop with ⟨dropped, _, reason, hreason, hne, hredundant, rfl⟩
  have hmem : ∀ {f : Formula},
      f ∈ (join k (fs.filter (fun h => h != dropped))).operandsUnder k ↔ f ∈ fs ∧ f ≠ dropped := by
    intro f
    have hkept : reason ∈ fs.filter (fun h => h != dropped) :=
      List.mem_filter.mpr ⟨hreason, bne_iff_ne.mpr hne⟩
    rw [mem_operandsUnder_join
      (fun f hf' => ((isValid_junction.mp hf).2.2 f (List.mem_filter.mp hf').1).1)
      (List.ne_nil_of_mem hkept), List.mem_filter, bne_iff_ne]
  constructor
  · intro f hf
    exact mem_operandsUnder_junction.mpr (hmem.mp hf).1
  · intro f hf
    rw [mem_operandsUnder_junction] at hf
    by_cases heq : f = dropped
    · rw [heq]
      exact ⟨reason, hmem.mpr ⟨hreason, hne⟩, hredundant⟩
    · exact ⟨f, hmem.mpr ⟨hf, heq⟩, makesRedundant_refl k f⟩

def Repeats (transform : Formula → Option Formula) : Formula → Formula → Prop :=
  Relation.ReflTransGen (fun f g => transform f = some g)

theorem retains_of_repeats {drop : Formula → Option Formula}
    (hdrop : ∀ {f g}, drop f = some g → Drops k f g) {f g : Formula} (hf : f.IsValid)
    (h : Repeats drop f g) : g.IsValid ∧ Retains k f g := by
  induction h with
  | refl => exact ⟨hf, Retains.refl k f⟩
  | tail _ hstep ih =>
      rcases ih with ⟨hvalid, hretains⟩
      have hdrops := hdrop hstep
      exact ⟨hdrops.isValid hvalid, hretains.trans (hdrops.retains hvalid)⟩

end Rule

namespace Formula

/-- `implies` is a preorder.  After any number of conjuncts of a valid conjunction, or of
disjuncts of a valid disjunction, have been dropped by the rules for it, the operands that are
left are operands of the original, and every operand of the original is implied by one of
them, or implies one. -/
theorem implies_preorder_drops :
    (∀ f : Formula, f.implies f = true) ∧
    (∀ f g h : Formula, f.implies g = true → g.implies h = true → f.implies h = true) ∧
    (∀ (fs : List Formula) (g : Formula), (junction .and fs).validate = .ok () →
      Rule.Repeats Rule.dropImpliedConjunct (junction .and fs) g →
      g.operandsUnder .and ⊆ fs ∧
        ∀ f ∈ fs, ∃ kept ∈ g.operandsUnder .and, kept.implies f = true) ∧
    ∀ (fs : List Formula) (g : Formula), (junction .or fs).validate = .ok () →
      Rule.Repeats Rule.dropImplyingDisjunct (junction .or fs) g →
      g.operandsUnder .or ⊆ fs ∧
        ∀ f ∈ fs, ∃ kept ∈ g.operandsUnder .or, f.implies kept = true := by
  refine ⟨implies_refl, fun _ _ _ => implies_trans, ?_, ?_⟩
  · intro fs g hvalid hdrops
    have hretains :=
      (Rule.retains_of_repeats Rule.drops_of_dropImpliedConjunct hvalid hdrops).2
    exact ⟨hretains.subset, hretains.redundant⟩
  · intro fs g hvalid hdrops
    have hretains :=
      (Rule.retains_of_repeats Rule.drops_of_dropImplyingDisjunct hvalid hdrops).2
    exact ⟨hretains.subset, hretains.redundant⟩

theorem implies_preorder_drops_always :
    let p := proposition "p"
    let fs := [p, always p, eventually p]
    (always p).implies p = true ∧ p.implies (eventually p) = true ∧
      (always p).implies (eventually p) = true ∧
      (junction .and fs).validate = .ok () ∧
      Rule.Repeats Rule.dropImpliedConjunct (junction .and fs) (always p) ∧
      (∀ f ∈ fs, ∃ kept ∈ (always p).operandsUnder .and, kept.implies f = true) ∧
      (junction .or fs).validate = .ok () ∧
      Rule.Repeats Rule.dropImplyingDisjunct (junction .or fs) (eventually p) ∧
      ∀ f ∈ fs, ∃ kept ∈ (eventually p).operandsUnder .or, f.implies kept = true := by
  intro p fs
  have hpast : (always p).implies p = true := by decide +kernel
  have hfuture : p.implies (eventually p) = true := by decide +kernel
  have hfirst : Rule.dropImpliedConjunct (junction .and fs) =
      some (junction .and [always p, eventually p]) := by decide +kernel
  have hlast : Rule.dropImpliedConjunct (junction .and [always p, eventually p]) =
      some (always p) := by decide +kernel
  have hfirst' : Rule.dropImplyingDisjunct (junction .or fs) =
      some (junction .or [always p, eventually p]) := by decide +kernel
  have hlast' : Rule.dropImplyingDisjunct (junction .or [always p, eventually p]) =
      some (eventually p) := by decide +kernel
  have hconjuncts : Rule.Repeats Rule.dropImpliedConjunct (junction .and fs) (always p) :=
    Relation.ReflTransGen.tail (.single hfirst) hlast
  have hdisjuncts : Rule.Repeats Rule.dropImplyingDisjunct (junction .or fs) (eventually p) :=
    Relation.ReflTransGen.tail (.single hfirst') hlast'
  rcases implies_preorder_drops with ⟨_, htrans, hand, hor⟩
  exact ⟨hpast, hfuture, htrans _ _ _ hpast hfuture, rfl, hconjuncts,
    (hand fs _ rfl hconjuncts).2, rfl, hdisjuncts, (hor fs _ rfl hdisjuncts).2⟩

end Formula
end LinearTemporal

import LinearTemporal.Proofs.RuleStep

/-!
# Rules keep the canonical shape

Every law of every group turns a valid formula into a valid one.  What a law puts
into a new junction goes through `join`, so it is enough that the pieces are parts
of the formula it was given, their negations, or junctions of such.
-/

namespace LinearTemporal
namespace Formula

/-!
Operands of a valid junction may be dropped, and others put in their place.
-/

theorem IsValid.complement? {f g : Formula} (hf : f.IsValid) (h : f.complement? = some g) :
    g.IsValid := by
  cases f with
  | const | literal | atom =>
      cases h
      rfl
  | not body =>
      cases h
      exact hf
  | _ => cases h

theorem IsValid.negated {f : Formula} (hf : f.IsValid) : f.negated.IsValid := by
  unfold Formula.negated
  cases h : f.complement? with
  | none => exact hf
  | some g => exact hf.complement? h

theorem IsValid.of_mem {k : Connective} {fs : List Formula} (h : (junction k fs).IsValid)
    {f : Formula} (hf : f ∈ fs) : f.IsValid :=
  h.children hf

theorem IsValid.join_filter_append {k : Connective} {fs replacement : List Formula}
    (h : (junction k fs).IsValid) (p : Formula → Bool)
    (hreplacement : ∀ f ∈ replacement, f.IsValid) :
    (join k (fs.filter p ++ replacement)).IsValid := by
  apply isValid_join
  intro f hf
  rcases List.mem_append.mp hf with hf | hf
  · exact h.of_mem (List.mem_filter.mp hf).1
  · exact hreplacement f hf

theorem IsValid.join_filter {k : Connective} {fs : List Formula} (h : (junction k fs).IsValid)
    (p : Formula → Bool) : (join k (fs.filter p)).IsValid := by
  apply isValid_join
  intro f hf
  exact h.of_mem (List.mem_filter.mp hf).1

end Formula

namespace Rule

open Formula

theorem PropositionalStep.isValid {f g : Formula} (h : PropositionalStep f g) (hf : f.IsValid) :
    g.IsValid := by
  cases h with
  | negatedConst | absorbing | negatedLiteral | negatedAtom | complementary => rfl
  | neutral => exact hf.join_filter _
  | doubleNegation => exact hf

theorem Distributes.isValid_iff {k : Connective} {body? : Formula → Option Formula}
    {wrap : Formula → Formula} (h : Distributes k body? wrap) {f : Formula} :
    (wrap f).IsValid ↔ f.IsValid := by
  cases h with
  | always | eventually | next => exact Iff.rfl

theorem ModalStep.isValid {f g : Formula} (h : ModalStep f g) (hf : f.IsValid) : g.IsValid := by
  cases h with
  | pushJunction k fs =>
      apply isValid_join
      intro g hg
      rcases List.mem_map.mp hg with ⟨f, hmem, rfl⟩
      exact (IsValid.of_mem hf hmem).negated
  | pushNext body | pushAlways body | pushEventually body =>
      have hbody : body.IsValid := hf
      exact hbody.negated
  | pushUntl left right =>
      rcases isValid_untl.mp hf with ⟨hleft, hright⟩
      exact isValid_release.mpr ⟨hleft.negated, hright.negated⟩
  | pushRelease left right =>
      rcases isValid_release.mp hf with ⟨hleft, hright⟩
      exact isValid_untl.mpr ⟨hleft.negated, hright.negated⟩
  | nextConst | alwaysConst | eventuallyConst | untlConst | releaseConst => rfl
  | untlFalse | untlTrue | untlSame => exact (isValid_untl.mp hf).2
  | releaseTrue | releaseFalse | releaseSame => exact (isValid_release.mp hf).2
  | nextInvariant | alwaysInvariant | eventuallyInvariant | alwaysAlways | eventuallyEventually =>
      exact hf
  | @merge k body? wrap fs hwrap _ =>
      apply hf.join_filter_append
      intro g hg
      cases List.mem_singleton.mp hg
      apply hwrap.isValid_iff.mpr
      apply isValid_join
      intro body hbody
      rcases List.mem_filterMap.mp hbody with ⟨f, hmem, hfbody⟩
      apply hwrap.isValid_iff.mp
      rw [← hwrap.eq_some_iff.mp hfbody]
      exact hf.of_mem hmem

theorem Trimmed.isValid {k : Connective} {siblings : List Formula} {f g : Formula}
    (h : Trimmed k siblings f g) (hf : f.IsValid) : g.IsValid := by
  cases h with
  | kept => exact hf
  | shrunk =>
      apply isValid_join
      intro g hg
      exact (hf.operandsUnder (List.mem_filter.mp hg).1).2

theorem isValid_of_trimmed {k : Connective} {siblings nested trimmed : List Formula}
    (h : List.Forall₂ (Trimmed k siblings) nested trimmed) (hnested : ∀ f ∈ nested, f.IsValid) :
    ∀ f ∈ trimmed, f.IsValid := by
  induction h with
  | nil => exact hnested
  | cons hf _ ih =>
      rw [List.forall_mem_cons] at hnested ⊢
      exact ⟨hf.isValid hnested.1, ih hnested.2⟩

theorem SubsumptionStep.isValid {f g : Formula} (h : SubsumptionStep f g) (hf : f.IsValid) :
    g.IsValid := by
  cases h with
  | dropRedundant | dropNested => exact hf.join_filter _
  | @trimNested k fs nested trimmed hnested _ htrimmed =>
      apply hf.join_filter_append
      intro g hg
      cases List.mem_singleton.mp hg
      exact isValid_join (isValid_of_trimmed htrimmed fun f hmem => (hf.of_mem hnested).of_mem hmem)
  | untlImplied => exact (isValid_untl.mp hf).2
  | releaseImplied => exact (isValid_release.mp hf).2
  | eventuallyUntl left right =>
      have huntl : (Formula.untl left right).IsValid := hf
      exact (isValid_untl.mp huntl).2
  | alwaysRelease left right =>
      have hrelease : (Formula.release left right).IsValid := hf
      exact (isValid_release.mp hrelease).2

theorem NextStep.isValid {f g : Formula} (h : NextStep f g) (hf : f.IsValid) : g.IsValid := by
  cases h with
  | not | always | eventually => exact hf
  | untl left right =>
      rcases isValid_untl.mp hf with ⟨hleft, hright⟩
      exact isValid_untl.mpr ⟨hleft, hright⟩
  | release left right =>
      rcases isValid_release.mp hf with ⟨hleft, hright⟩
      exact isValid_release.mpr ⟨hleft, hright⟩
  | junction k bodies =>
      show (join k bodies).IsValid
      apply isValid_join
      intro body hbody
      have hnext : body.next.IsValid := hf.of_mem (List.mem_map_of_mem hbody)
      exact hnext

/-- A rule turns a formula in canonical shape into a formula in canonical shape. -/
theorem Step.isValid {f g : Formula} (h : Step f g) (hf : f.IsValid) : g.IsValid := by
  cases h with
  | propositional h => exact h.isValid hf
  | modal h => exact h.isValid hf
  | subsumption h => exact h.isValid hf
  | nextFloating h => exact h.isValid hf

end Rule

end LinearTemporal

import LinearTemporal.Proofs.Presimplification
import LinearTemporal.Proofs.PropositionalFirst
import LinearTemporal.Proofs.SubsumptionLast

/-!
# Strategies with more rules

Each of the strategies propositional, modal and aggressive has the rules of the one before.
Used one after the other they make a formula smaller and smaller.  Used alone on the same
formula, the stronger one can lose to the weaker: a rule that it has more can change a part of
the formula that a common rule would have recognised.  The modal rules push a negation into a
formula that stands beside its negation, and subsumption can drop what a modal rule needs, or
leave two spellings of one formula with different results.  Where neither happens, what the
stronger strategy makes of a formula is what it makes of the result of the weaker one.
-/

namespace LinearTemporal

namespace Formula

/-- Subsumption does not come before a modal rule in a way that matters: wherever a modal rule
applies at the root, both strategies agree on the parts. -/
inductive Undisturbed : Formula → Prop where
  | agree {f : Formula} :
      (∀ c ∈ f.children, c.simplify .aggressive = c.simplify .modal) → Undisturbed f
  | rebuilt {f : Formula} : (∀ c ∈ f.children, Undisturbed c) →
      f.simplify .modal = f.withChildren (f.children.map (simplify · .modal)) →
      (∀ k, f.isJunction k = true → ∀ c ∈ f.children, (c.simplify .modal).isJunction k = true →
        c.simplify .aggressive = c.simplify .modal) → Undisturbed f

/-!
Where the parts come to the same, subsumption may wait until the modal rules are done.
So it may in an undisturbed formula, by induction from the parts to the root.
-/

theorem modalFirst_of_agree {f : Formula} (hf : f.IsValid)
    (h : ∀ c ∈ f.children, c.simplify .aggressive = c.simplify .modal) : f.ModalFirst := by
  have hparts : f.mapChildren (simplify · .aggressive) = f.mapChildren (simplify · .modal) :=
    congrArg f.withChildren (List.map_congr_left h)
  have hnormal : (f.mapChildren (simplify · .aggressive)).ModalFirst :=
    modalFirst_of_children (isValid_mapChildren_simplify hf)
      (isNormal_of_mem_children_mapChildren hf)
  refine hnormal.congr (simplify_mapChildren hf).symm ?_
  rw [hparts]
  exact (simplify_mapChildren hf).symm

theorem Undisturbed.modalFirst {f : Formula} (h : f.Undisturbed) (hf : f.IsValid) :
    f.ModalFirst := by
  induction h with
  | agree h => exact modalFirst_of_agree hf h
  | @rebuilt f _ hroot hflat ih =>
      have hmap : (f.children.map (simplify · .modal)).map (simplify · .aggressive) =
          f.children.map (simplify · .aggressive) := by
        rw [List.map_map]
        exact List.map_congr_left fun c hc => (ih c hc (hf.children hc)).symm
      have hvalid : ∀ g ∈ f.children.map (simplify · .modal), g.IsValid := by
        intro g hg
        rcases List.mem_map.mp hg with ⟨c, hc, rfl⟩
        exact isValid_simplify .modal (hf.children hc)
      have hadmits : ∀ g ∈ f.children.map (simplify · .modal),
          Strategy.AdmitsPart .aggressive f g := by
        intro g hg
        rcases List.mem_map.mp hg with ⟨c, hc, rfl⟩
        refine Or.inr (Or.inr fun k hk hck => ?_)
        rw [← ih c hc (hf.children hc), hflat k hk c hc hck]
      rw [ModalFirst, hroot, simplify_withChildren hf hvalid hmap hadmits]

theorem size_simplify_aggressive_le {f : Formula} (hf : f.IsValid) (h : f.Undisturbed) :
    (f.simplify .aggressive).size ≤ (f.simplify .modal).size := by
  rw [h.modalFirst hf]
  exact size_simplify_le .aggressive (isValid_simplify .modal hf)

/-- A stronger strategy gives no larger result than the one before if leaves are all that the
propositional rules have to recognise as complementary, as they are when no complementary
operands were found, and if subsumption does not disturb the modal rules.  After the weaker one
it never makes a formula larger. -/
theorem size_simplify_stronger {f : Formula} (hf : f.IsValid) :
    ("complementary_operands" ∉ Simplifier.firedRules ⟨.propositional, 64⟩ f →
        f.DecidedByLeaves) ∧
      (f.DecidedByLeaves → (f.simplify .modal).size ≤ (f.simplify .propositional).size) ∧
      (f.Undisturbed → (f.simplify .aggressive).size ≤ (f.simplify .modal).size) ∧
      ((f.simplify .propositional).simplify .modal).size ≤ (f.simplify .propositional).size ∧
      ((f.simplify .modal).simplify .aggressive).size ≤ (f.simplify .modal).size :=
  ⟨decidedByLeaves_of_not_mem hf, size_simplify_modal_le hf, size_simplify_aggressive_le hf,
    size_simplify_le .modal (isValid_simplify .propositional hf),
    size_simplify_le .aggressive (isValid_simplify .modal hf)⟩

theorem size_simplify_stronger_and :
    let p : Formula := literal "p" false
    let f : Formula := junction .and [p, always p, always (literal "q" false)]
    let g : Formula := junction .or [f, junction .and [literal "r" false, literal "r" true]]
    f.IsValid ∧ "complementary_operands" ∉ Simplifier.firedRules ⟨.propositional, 64⟩ f ∧
      f.Undisturbed ∧ (f.simplify .modal).size ≤ (f.simplify .propositional).size ∧
      (f.simplify .aggressive).size ≤ (f.simplify .modal).size ∧
      g.IsValid ∧ "complementary_operands" ∈ Simplifier.firedRules ⟨.propositional, 64⟩ g ∧
      g.DecidedByLeaves ∧ (g.simplify .modal).size ≤ (g.simplify .propositional).size := by
  intro p f g
  have hf : f.IsValid := rfl
  have hg : g.IsValid := rfl
  have hfired : "complementary_operands" ∉ Simplifier.firedRules ⟨.propositional, 64⟩ f := by
    decide +kernel
  have hundisturbed : f.Undisturbed := by
    refine Undisturbed.agree ?_
    decide +kernel
  have hleaves : g.DecidedByLeaves := by
    unfold DecidedByLeaves
    decide +kernel
  have hffacts := size_simplify_stronger hf
  have hgfacts := size_simplify_stronger hg
  exact ⟨hf, hfired, hundisturbed, hffacts.2.1 (hffacts.1 hfired), hffacts.2.2.1 hundisturbed,
    hg, by decide +kernel, hleaves, hgfacts.2.1 hleaves⟩

/-- The modal rules hide `always p` from its negation; subsumption hides `p` from what the
negation of `p | F p` comes to; and it leaves two spellings of one formula apart, beside which
no complement ever occurs. -/
theorem size_simplify_stronger_lt :
    let p : Formula := literal "p" false
    let notP : Formula := literal "p" true
    let f : Formula := junction .or [not (always p), always p]
    let g : Formula := junction .and [p, not (junction .or [p, eventually p])]
    let h : Formula := untl (junction .or [next notP, eventually notP])
      (not (junction .and [next p, always p]))
    f.IsValid ∧ (f.simplify .propositional).size < (f.simplify .modal).size ∧
      g.IsValid ∧ (g.simplify .modal).size < (g.simplify .aggressive).size ∧
      h.IsValid ∧ (h.simplify .modal).size < (h.simplify .aggressive).size := by
  decide +kernel

end Formula

end LinearTemporal

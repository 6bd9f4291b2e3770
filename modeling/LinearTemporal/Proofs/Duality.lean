import LinearTemporal.Proofs.Flattening

/-!
# Duality

The dual of a formula has every connective, temporal operator and leaf replaced by its dual.
The modal rules have no preference between a formula and its dual: the dual of a normal
formula is normal, and it is what the negation of the formula comes to.  Hence two negations
cancel out even if something is simplified between them.
-/

namespace LinearTemporal

open Formula

namespace Formula

/-!
## The dual of a formula

The dual of the dual is the formula, and the tests of the root are exchanged with their
duals.
-/

mutual

/-- The formula with every operator and leaf replaced by its dual. -/
def dual : Formula → Formula
  | const value => const (!value)
  | literal name negated => literal name (!negated)
  | atom left op right => atom left op.negate right
  | not body => not body.dual
  | next body => next body.dual
  | always body => eventually body.dual
  | eventually body => always body.dual
  | untl left right => release left.dual right.dual
  | release left right => untl left.dual right.dual
  | junction k fs => junction k.dual (Ascending.ofList (dualAll fs))

def dualAll : List Formula → List Formula
  | [] => []
  | f :: fs => f.dual :: dualAll fs

end

theorem dualAll_eq_map (fs : List Formula) : dualAll fs = fs.map dual := by
  induction fs with
  | nil => rfl
  | cons f fs ih => rw [dualAll, ih, List.map_cons]

theorem mem_dual_operands {fs : List Formula} {g : Formula} :
    g ∈ Ascending.ofList (dualAll fs) ↔ ∃ f ∈ fs, f.dual = g := by
  rw [Ascending.mem_ofList, dualAll_eq_map, List.mem_map]

theorem isJunction_dual (k : Connective) (f : Formula) :
    f.dual.isJunction k.dual = f.isJunction k := by
  cases f with
  | junction l fs => cases k <;> cases l <;> rfl
  | _ => rfl

theorem isAlways_dual (f : Formula) : f.dual.isAlways = f.isEventually := by
  cases f <;> rfl

theorem isEventually_dual (f : Formula) : f.dual.isEventually = f.isAlways := by
  cases f <;> rfl

theorem eq_const_of_dual {f : Formula} {value : Bool} (h : f.dual = const value) :
    f = const (!value) := by
  cases f with
  | const value' =>
      cases h
      rw [Bool.not_not]
  | _ => cases h

theorem dual_dual {f : Formula} (hf : f.IsValid) : f.dual.dual = f := by
  induction f using induction_on_children with
  | step f ih =>
      have hparts : ∀ g ∈ f.children, g.dual.dual = g := fun g hg => ih g hg (hf.children hg)
      cases f with
      | const value => simp only [dual, Bool.not_not]
      | literal name negated => simp only [dual, Bool.not_not]
      | atom left op right => simp only [dual, Comparison.negate_negate]
      | not body | next body | always body | eventually body =>
          simp only [dual, hparts body List.mem_cons_self]
      | untl left right | release left right =>
          simp only [dual, hparts left List.mem_cons_self,
            hparts right (List.mem_cons_of_mem _ List.mem_cons_self)]
      | junction k fs =>
          have hoperands : Ascending.ofList (dualAll (Ascending.ofList (dualAll fs))) = fs := by
            apply Ascending.IsAscending.ext (Ascending.isAscending_ofList _)
              (isValid_junction.mp hf).2.1
            intro x
            rw [mem_dual_operands]
            constructor
            · rintro ⟨g, hg, rfl⟩
              rcases mem_dual_operands.mp hg with ⟨f, hf, rfl⟩
              rw [hparts f hf]
              exact hf
            · intro hx
              exact ⟨x.dual, mem_dual_operands.mpr ⟨x, hx, rfl⟩, hparts x hx⟩
          rw [dual, dual, hoperands, Connective.dual_dual]

theorem eq_of_dual_eq {f g : Formula} (hf : f.IsValid) (hg : g.IsValid) (h : f.dual = g.dual) :
    f = g := by
  rw [← dual_dual hf, h, dual_dual hg]

theorem IsValid.dual {f : Formula} (hf : f.IsValid) : f.dual.IsValid := by
  induction f using induction_on_children with
  | step f ih =>
      cases f with
      | const | literal | atom => rfl
      | not body | next body | always body | eventually body =>
          exact ih body List.mem_cons_self (hf.children List.mem_cons_self)
      | untl left right =>
          rcases isValid_untl.mp hf with ⟨hleft, hright⟩
          exact isValid_release.mpr ⟨ih left List.mem_cons_self hleft,
            ih right (List.mem_cons_of_mem _ List.mem_cons_self) hright⟩
      | release left right =>
          rcases isValid_release.mp hf with ⟨hleft, hright⟩
          exact isValid_untl.mpr ⟨ih left List.mem_cons_self hleft,
            ih right (List.mem_cons_of_mem _ List.mem_cons_self) hright⟩
      | junction k fs =>
          refine isValid_junction.mpr ⟨?_, Ascending.isAscending_ofList _, ?_⟩
          · rcases exists_ne_mem hf (const true) with ⟨f, hfmem, _⟩
            rcases exists_ne_mem hf f with ⟨g, hgmem, hne⟩
            refine two_le_length_of_mem (mem_dual_operands.mpr ⟨g, hgmem, rfl⟩)
              (mem_dual_operands.mpr ⟨f, hfmem, rfl⟩) ?_
            exact fun h => hne (eq_of_dual_eq (hf.children hgmem) (hf.children hfmem) h)
          · intro g hg
            rcases mem_dual_operands.mp hg with ⟨f, hfmem, rfl⟩
            rw [isJunction_dual]
            exact ⟨((isValid_junction.mp hf).2.2 f hfmem).1, ih f hfmem (hf.children hfmem)⟩

theorem complement?_dual (f : Formula) : f.dual.complement? = f.complement?.map dual := by
  cases f <;> rfl

theorem isSuffixInvariant_dual (f : Formula) :
    f.dual.isSuffixInvariant = f.isSuffixInvariant := by
  induction f using induction_on_children with
  | step f ih =>
      cases f with
      | const | literal | atom => rfl
      | not body | next body =>
          simp only [dual, isSuffixInvariant, ih body List.mem_cons_self]
      | always body | eventually body =>
          simp only [dual, isSuffixInvariant, ih body List.mem_cons_self, isAlways_dual,
            isEventually_dual]
      | untl left right | release left right =>
          simp only [dual, isSuffixInvariant, ih left List.mem_cons_self,
            ih right (List.mem_cons_of_mem _ List.mem_cons_self)]
      | junction k fs =>
          apply Bool.eq_iff_iff.mpr
          constructor
          · intro h
            apply areSuffixInvariant_iff.mpr
            intro f hf
            rw [← ih f hf]
            exact areSuffixInvariant_iff.mp h f.dual (mem_dual_operands.mpr ⟨f, hf, rfl⟩)
          · intro h
            apply areSuffixInvariant_iff.mpr
            intro g hg
            rcases mem_dual_operands.mp hg with ⟨f, hf, rfl⟩
            rw [ih f hf]
            exact areSuffixInvariant_iff.mp h f hf

/-!
## The dual of a normal formula

Node by node, no law has an outcome for the dual.  Where two operands or more have an
operator that would be gathered, two of them have different bodies, and so have their
duals.
-/

theorem isNormal_of_no_step {f : Formula}
    (hparts : ∀ g ∈ f.children, g.IsNormal Strategy.modal.rules)
    (hpropositional : ∀ g, ¬ Rule.PropositionalStep f g) (hmodal : ∀ g, ¬ Rule.ModalStep f g) :
    f.IsNormal Strategy.modal.rules := by
  apply IsNormal.of_children _ hparts
  intro rule hrule
  cases happly : rule.apply f with
  | none => rfl
  | some g =>
      have htransform := Rule.transform_of_apply happly
      rcases List.mem_append.mp (show rule ∈ Rule.propositional ++ Rule.modal from hrule)
        with hrule | hrule
      · exact absurd (Rule.PropositionalStep.of_mem hrule htransform) (hpropositional g)
      · exact absurd (Rule.ModalStep.of_mem hrule htransform) (hmodal g)

theorem isNormal_of_children_eq_nil {f : Formula} (hf : f.IsValid) (h : f.children = []) :
    f.IsNormal Strategy.modal.rules := by
  have hjunction : ∀ {k fs}, f ≠ junction k fs := by
    rintro k fs rfl
    rw [show fs = [] from h] at hf
    exact absurd (isValid_junction.mp hf).1 (by simp)
  refine isNormal_of_no_step ?_ (fun g hstep => ?_) (fun g hstep => ?_)
  · rw [h]
    exact fun g hg => nomatch hg
  · cases hstep with
    | absorbing | neutral | complementary => exact hjunction rfl
    | _ => cases h
  · cases hstep with
    | merge => exact hjunction rfl
    | _ => cases h

section

variable {f : Formula} (hnormal : f.IsNormal Strategy.modal.rules) (hf : f.IsValid)

include hnormal hf

theorem IsNormal.transform_eq_none {transform : Formula → Option Formula}
    (h : transform ∈ (Rule.propositional ++ Rule.modal).map Rule.transform) :
    transform f = none := by
  apply Option.not_isSome_iff_eq_none.mp
  intro hsome
  exact hnormal.not_isRedex hf
    ((Rule.IsRedex.of_transform transform h hsome).mono (Strategy.modal_subset_rules (Or.inl rfl)))

theorem IsNormal.dual_ne_const {g : Formula} (hg : g ∈ f.children) (value : Bool) :
    g.dual ≠ const value := by
  intro h
  rw [eq_const_of_dual h] at hg
  exact hnormal.not_isRedex hf ((Rule.isRedex_of_const_mem_children hg).mono
    (Strategy.modal_subset_rules (Or.inl rfl)))

end

theorem exists_ne_of_two_le {α : Type} {xs : List α} (hne : xs.Pairwise (fun x y => x ≠ y))
    (hlength : 2 ≤ xs.length) : ∃ x ∈ xs, ∃ y ∈ xs, x ≠ y := by
  match xs with
  | [] | [_] => simp at hlength
  | x :: y :: rest =>
      exact ⟨x, by simp, y, by simp, List.rel_of_pairwise_cons hne List.mem_cons_self⟩

theorem exists_dual_of_distributes {k : Connective} {body? : Formula → Option Formula}
    {wrap : Formula → Formula} (h : Rule.Distributes k.dual body? wrap) :
    ∃ (body?' : Formula → Option Formula) (wrap' : Formula → Formula),
      Rule.Distributes k body?' wrap' ∧
        ∀ f body, f.dual = wrap body → ∃ c, f = wrap' c ∧ c.dual = body := by
  generalize hl : k.dual = l at h
  cases h with
  | always =>
      cases k with
      | and => cases hl
      | or =>
          refine ⟨_, _, Rule.Distributes.eventually, ?_⟩
          intro f body hdual
          cases f <;> cases hdual
          exact ⟨_, rfl, rfl⟩
  | eventually =>
      cases k with
      | or => cases hl
      | and =>
          refine ⟨_, _, Rule.Distributes.always, ?_⟩
          intro f body hdual
          cases f <;> cases hdual
          exact ⟨_, rfl, rfl⟩
  | next =>
      refine ⟨_, _, Rule.Distributes.next k, ?_⟩
      intro f body hdual
      cases f <;> cases hdual
      exact ⟨_, rfl, rfl⟩

theorem exists_bodies_ne {k : Connective} {body? : Formula → Option Formula}
    {wrap : Formula → Formula} (h : Rule.Distributes k body? wrap) {fs : List Formula}
    (hascending : Ascending.IsAscending fs) (hcount : 2 ≤ (fs.filterMap body?).length) :
    ∃ b b', wrap b ∈ fs ∧ wrap b' ∈ fs ∧ b ≠ b' := by
  have hne : (fs.filterMap body?).Pairwise (fun x y => x ≠ y) := by
    refine hascending.filterMap body? ?_
    intro x y hlt b hb b' hb' heq
    rw [h.eq_some_iff.mp hb, h.eq_some_iff.mp hb', heq,
      Std.LawfulEqOrd.compare_eq_iff_eq.mpr rfl] at hlt
    cases hlt
  have hwrapped : ∀ b ∈ fs.filterMap body?, wrap b ∈ fs := by
    intro b hb
    rcases List.mem_filterMap.mp hb with ⟨g, hg, hgb⟩
    rw [h.eq_some_iff.mp hgb] at hg
    exact hg
  rcases exists_ne_of_two_le hne hcount with ⟨b, hb, b', hb', hbne⟩
  exact ⟨b, b', hwrapped b hb, hwrapped b' hb', hbne⟩

theorem not_two_le_dual_bodies {k : Connective} {body? : Formula → Option Formula}
    {wrap : Formula → Formula} (h : Rule.Distributes k.dual body? wrap) {fs : List Formula}
    (hnormal : (junction k fs).IsNormal Strategy.modal.rules)
    (hvalid : (junction k fs).IsValid) :
    ¬ 2 ≤ ((Ascending.ofList (dualAll fs)).filterMap body?).length := by
  intro hcount
  rcases exists_bodies_ne h (Ascending.isAscending_ofList _) hcount with ⟨b, b', hb, hb', hne⟩
  rcases exists_dual_of_distributes h with ⟨body?', wrap', h', hdual⟩
  have hoperand : ∀ b, wrap b ∈ Ascending.ofList (dualAll fs) → ∃ c, wrap' c ∈ fs ∧ c.dual = b := by
    intro b hb
    rcases mem_dual_operands.mp hb with ⟨f, hf, hfb⟩
    rcases hdual f b hfb with ⟨c, rfl, hc⟩
    exact ⟨c, hf, hc⟩
  rcases hoperand b hb with ⟨c, hc, rfl⟩
  rcases hoperand b' hb' with ⟨c', hc', rfl⟩
  exact hne (congrArg Formula.dual (IsNormal.body_unique ⟨rfl, h'⟩ hnormal hvalid
    (mem_operandsUnder_junction.mpr hc) (mem_operandsUnder_junction.mpr hc')))

theorem isNormal_dual_junction {k : Connective} {fs : List Formula}
    (hnormal : (junction k fs).IsNormal Strategy.modal.rules) (hvalid : (junction k fs).IsValid)
    (hparts : ∀ f ∈ fs, f.dual.IsNormal Strategy.modal.rules) :
    (junction k fs).dual.IsNormal Strategy.modal.rules := by
  have hconst : ∀ value, const value ∉ Ascending.ofList (dualAll fs) := by
    intro value hvalue
    rcases mem_dual_operands.mp hvalue with ⟨f, hf, hdual⟩
    exact hnormal.dual_ne_const hvalid hf value hdual
  apply isNormal_of_no_step
  · intro g hg
    rcases mem_dual_operands.mp hg with ⟨f, hf, rfl⟩
    exact hparts f hf
  · intro g hstep
    cases hstep with
    | absorbing hmem => exact hconst _ hmem
    | neutral _ hmem => exact hconst _ hmem
    | complementary hx hy hcomplement =>
        rcases mem_dual_operands.mp hx with ⟨f, hf, rfl⟩
        rcases mem_dual_operands.mp hy with ⟨f', hf', rfl⟩
        rw [complement?_dual] at hcomplement
        rcases Option.map_eq_some_iff.mp hcomplement with ⟨c, hc, hdual⟩
        have hcvalid : c.IsValid := (hvalid.children hf).complement? hc
        rw [eq_of_dual_eq hcvalid (hvalid.children hf') hdual] at hc
        exact hnormal.complement_not_mem Strategy.noConfusion hvalid hf hf' hc
  · intro g hstep
    cases hstep with
    | merge hdistributes hcount =>
        exact not_two_le_dual_bodies hdistributes hnormal hvalid hcount

section

variable {f g : Formula} (hf : f.IsNormal Strategy.modal.rules)

include hf

theorem isNormal_next (hinvariant : f.isSuffixInvariant = false) :
    (next f).IsNormal Strategy.modal.rules := by
  refine isNormal_of_no_step ?_ (fun g hstep => ?_) (fun g hstep => ?_)
  · exact List.forall_mem_singleton.mpr hf
  · cases hstep
  cases hstep with
  | nextConst => cases hinvariant
  | nextInvariant h =>
      rw [hinvariant] at h
      cases h

theorem isNormal_always (hinvariant : f.isSuffixInvariant = false) (hroot : f.isAlways = false) :
    (always f).IsNormal Strategy.modal.rules := by
  refine isNormal_of_no_step ?_ (fun g hstep => ?_) (fun g hstep => ?_)
  · exact List.forall_mem_singleton.mpr hf
  · cases hstep
  cases hstep with
  | alwaysConst => cases hinvariant
  | alwaysAlways => cases hroot
  | alwaysInvariant h =>
      rw [hinvariant] at h
      cases h

theorem isNormal_eventually (hinvariant : f.isSuffixInvariant = false)
    (hroot : f.isEventually = false) : (eventually f).IsNormal Strategy.modal.rules := by
  refine isNormal_of_no_step ?_ (fun g hstep => ?_) (fun g hstep => ?_)
  · exact List.forall_mem_singleton.mpr hf
  · cases hstep
  cases hstep with
  | eventuallyConst => cases hinvariant
  | eventuallyEventually => cases hroot
  | eventuallyInvariant h =>
      rw [hinvariant] at h
      cases h

variable (hg : g.IsNormal Strategy.modal.rules) (hfconst : ∀ value, f ≠ const value)
  (hgconst : ∀ value, g ≠ const value) (hne : f ≠ g)

include hg hfconst hgconst hne

theorem isNormal_untl : (untl f g).IsNormal Strategy.modal.rules := by
  refine isNormal_of_no_step ?_ (fun g hstep => ?_) (fun g hstep => ?_)
  · exact List.forall_mem_cons.mpr ⟨hf, List.forall_mem_singleton.mpr hg⟩
  · cases hstep
  · cases hstep with
    | untlConst | untlFalse | untlTrue => first | exact hgconst _ rfl | exact hfconst _ rfl
    | untlSame => exact hne rfl

theorem isNormal_release : (release f g).IsNormal Strategy.modal.rules := by
  refine isNormal_of_no_step ?_ (fun g hstep => ?_) (fun g hstep => ?_)
  · exact List.forall_mem_cons.mpr ⟨hf, List.forall_mem_singleton.mpr hg⟩
  · cases hstep
  · cases hstep with
    | releaseConst | releaseFalse | releaseTrue => first | exact hgconst _ rfl | exact hfconst _ rfl
    | releaseSame => exact hne rfl

end

/-- The modal rules leave the dual of a normal formula as it is. -/
theorem IsNormal.dual {f : Formula} (hnormal : f.IsNormal Strategy.modal.rules)
    (hf : f.IsValid) : f.dual.IsNormal Strategy.modal.rules := by
  induction f using induction_on_children with
  | step f ih =>
      have hparts : ∀ g ∈ f.children, g.dual.IsNormal Strategy.modal.rules :=
        fun g hg => ih g hg (hnormal.children g hg) (hf.children hg)
      have hconst : ∀ g ∈ f.children, ∀ value, g.dual ≠ const value :=
        fun g hg => hnormal.dual_ne_const hf hg
      have hidempotence : Rule.temporalIdempotence f = none :=
        hnormal.transform_eq_none hf (by simp [Rule.modal])
      cases f with
      | const | literal | atom => exact isNormal_of_children_eq_nil rfl rfl
      | not body => exact absurd rfl ((hnormal.isNegationNormal (Or.inl rfl) hf).ne_not body)
      | next body =>
          have hbody : body.isSuffixInvariant = false := by
            simpa [Rule.temporalIdempotence] using hidempotence
          exact isNormal_next (hparts body List.mem_cons_self)
            ((isSuffixInvariant_dual body).trans hbody)
      | always body =>
          have hbody : body.isAlways = false ∧ body.isSuffixInvariant = false := by
            simpa [Rule.temporalIdempotence] using hidempotence
          exact isNormal_eventually (hparts body List.mem_cons_self)
            ((isSuffixInvariant_dual body).trans hbody.2)
            ((isEventually_dual body).trans hbody.1)
      | eventually body =>
          have hbody : body.isEventually = false ∧ body.isSuffixInvariant = false := by
            simpa [Rule.temporalIdempotence] using hidempotence
          exact isNormal_always (hparts body List.mem_cons_self)
            ((isSuffixInvariant_dual body).trans hbody.2)
            ((isAlways_dual body).trans hbody.1)
      | untl left right =>
          have hleft : left ∈ (untl left right).children := List.mem_cons_self
          have hright : right ∈ (untl left right).children :=
            List.mem_cons_of_mem _ List.mem_cons_self
          have hne : left ≠ right := by
            simpa [Rule.temporalIdempotence] using hidempotence
          exact isNormal_release (hparts left hleft) (hparts right hright) (hconst left hleft)
            (hconst right hright)
            fun h => hne (eq_of_dual_eq (hf.children hleft) (hf.children hright) h)
      | release left right =>
          have hleft : left ∈ (release left right).children := List.mem_cons_self
          have hright : right ∈ (release left right).children :=
            List.mem_cons_of_mem _ List.mem_cons_self
          have hne : left ≠ right := by
            simpa [Rule.temporalIdempotence] using hidempotence
          exact isNormal_untl (hparts left hleft) (hparts right hright) (hconst left hleft)
            (hconst right hright)
            fun h => hne (eq_of_dual_eq (hf.children hleft) (hf.children hright) h)
      | junction k fs => exact isNormal_dual_junction hnormal hf hparts

/-!
## Negation

What is pushed into an operator makes its dual of it.  So the negation of a normal
formula comes to its dual, and two negations cancel out.
-/

theorem join_dual {k : Connective} {fs : List Formula} (hvalid : (junction k fs).IsValid) :
    join k.dual (fs.map dual) = (junction k fs).dual := by
  have hdual := join_eq_junction hvalid.dual
  rw [dual, ← hdual]
  apply join_congr
  intro g
  simp only [List.mem_map, mem_dual_operands]

section

variable {s : Strategy} (hs : s = .modal ∨ s = .aggressive) {f : Formula}
  (hnormal : f.IsNormal s.rules) (hf : f.IsValid)

include hs hnormal hf

theorem simplify_negated (hnot : (not f).simplify s = f.dual.simplify s) :
    f.negated.simplify s = f.dual.simplify s := by
  cases f with
  | const | literal | atom => rfl
  | not body => exact absurd rfl ((hnormal.isNegationNormal hs hf).ne_not body)
  | _ => exact hnot

theorem isJunction_negated {k : Connective} (hk : f.isJunction k = false) :
    f.negated.isJunction k.dual = false := by
  cases f with
  | not body => exact absurd rfl ((hnormal.isNegationNormal hs hf).ne_not body)
  | _ => rfl

omit hs in
theorem simplify_not_of_firstOutcome {g : Formula}
    (hfirst : Rule.firstOutcome (not f) s.rules = some g)
    (hmap : g.mapChildren (simplify · s) = f.dual.mapChildren (simplify · s)) :
    (not f).simplify s = f.dual.simplify s := by
  have hparts : ∀ c ∈ (not f).children, c.IsNormal s.rules :=
    List.forall_mem_singleton.mpr hnormal
  rcases Rule.mem_and_transform_of_firstOutcome hfirst with ⟨rule, hrule, htransform⟩
  have hnot : (not f).IsValid := hf
  have hg : g.IsValid := (Rule.Step.of_transform hrule htransform).isValid hnot
  rw [simplify_of_firstOutcome hnot hparts hfirst, simplify_congr hg hf.dual hmap]

end

section

variable {s : Strategy} (hs : s = .modal ∨ s = .aggressive)

include hs

theorem simplify_not_junction {k : Connective} {fs : List Formula}
    (hnormal : (junction k fs).IsNormal s.rules) (hf : (junction k fs).IsValid)
    (hparts : ∀ f ∈ fs, f.negated.simplify s = f.dual.simplify s) :
    (not (junction k fs)).simplify s = (junction k fs).dual.simplify s := by
  have hnot : (not (junction k fs)).IsValid := hf
  have hfirst : Rule.firstOutcome (not (junction k fs)) s.rules =
      some (join k.dual (fs.map negated)) := by
    rcases hs with rfl | rfl <;> rfl
  have hoperand := (isValid_junction.mp hf).2.2
  have hnegated : ∀ g ∈ fs.map negated, g.IsValid ∧ g.isJunction k.dual = false := by
    intro g hg
    rcases List.mem_map.mp hg with ⟨f, hfmem, rfl⟩
    exact ⟨(hoperand f hfmem).2.negated, isJunction_negated hs (hnormal.children f hfmem)
      (hoperand f hfmem).2 (hoperand f hfmem).1⟩
  have hdual : ∀ g ∈ fs.map Formula.dual, g.IsValid ∧ g.isJunction k.dual = false := by
    intro g hg
    rcases List.mem_map.mp hg with ⟨f, hfmem, rfl⟩
    exact ⟨(hoperand f hfmem).2.dual, (isJunction_dual k f).trans (hoperand f hfmem).1⟩
  have hflat : ∀ {gs : List Formula}, (∀ g ∈ gs, g.IsValid ∧ g.isJunction k.dual = false) →
      (join k.dual (gs.map (simplify · s))).simplify s = (join k.dual gs).simplify s := by
    intro gs hgs
    refine simplify_join_map (fun g hg => (hgs g hg).1) ?_
    intro g hg hk
    rw [(hgs g hg).2] at hk
    cases hk
  have hmap : (fs.map negated).map (simplify · s) = (fs.map Formula.dual).map (simplify · s) := by
    rw [List.map_map, List.map_map]
    exact List.map_congr_left hparts
  rw [simplify_of_firstOutcome hnot (List.forall_mem_singleton.mpr hnormal) hfirst,
    ← hflat hnegated, hmap, hflat hdual, join_dual hf]

theorem simplify_not {f : Formula} (hnormal : f.IsNormal s.rules) (hf : f.IsValid) :
    (not f).simplify s = f.dual.simplify s := by
  induction f using induction_on_children with
  | step f ih =>
      have hpart : ∀ g ∈ f.children, g.negated.simplify s = g.dual.simplify s := by
        intro g hg
        have hgnormal := hnormal.children g hg
        have hgvalid := hf.children hg
        exact simplify_negated hs hgnormal hgvalid (ih g hg hgnormal hgvalid)
      have hfirst : ∀ {g : Formula}, Rule.firstOutcome (not f) Strategy.modal.rules = some g →
          Rule.firstOutcome (not f) Strategy.aggressive.rules = some g →
          Rule.firstOutcome (not f) s.rules = some g := by
        intro g hmodal haggressive
        rcases hs with rfl | rfl
        · exact hmodal
        · exact haggressive
      cases f with
      | const | literal | atom =>
          exact simplify_not_of_firstOutcome hnormal hf (hfirst rfl rfl) rfl
      | not body => exact absurd rfl ((hnormal.isNegationNormal hs hf).ne_not body)
      | next body =>
          apply simplify_not_of_firstOutcome hnormal hf (hfirst rfl rfl)
          rw [dual, IsUnary.next.mapChildren, IsUnary.next.mapChildren,
            hpart body List.mem_cons_self]
      | always body =>
          apply simplify_not_of_firstOutcome hnormal hf (hfirst rfl rfl)
          rw [dual, IsUnary.eventually.mapChildren, IsUnary.eventually.mapChildren,
            hpart body List.mem_cons_self]
      | eventually body =>
          apply simplify_not_of_firstOutcome hnormal hf (hfirst rfl rfl)
          rw [dual, IsUnary.always.mapChildren, IsUnary.always.mapChildren,
            hpart body List.mem_cons_self]
      | untl left right =>
          apply simplify_not_of_firstOutcome hnormal hf (hfirst rfl rfl)
          rw [dual, IsBinary.release.mapChildren, IsBinary.release.mapChildren,
            hpart left List.mem_cons_self, hpart right (List.mem_cons_of_mem _ List.mem_cons_self)]
      | release left right =>
          apply simplify_not_of_firstOutcome hnormal hf (hfirst rfl rfl)
          rw [dual, IsBinary.untl.mapChildren, IsBinary.untl.mapChildren,
            hpart left List.mem_cons_self, hpart right (List.mem_cons_of_mem _ List.mem_cons_self)]
      | junction k fs => exact simplify_not_junction hs hnormal hf hpart

end

theorem simplify_not_modal {f : Formula} (hnormal : f.IsNormal Strategy.modal.rules)
    (hf : f.IsValid) : (not f).simplify .modal = f.dual := by
  rw [simplify_not (Or.inl rfl) hnormal hf, simplify_of_isNormal (hnormal.dual hf)]

/-- A negation comes to the dual of what is negated. -/
theorem simplify_not_eq_dual {f : Formula} (hf : f.IsValid) :
    (not f).simplify .modal = (f.simplify .modal).dual := by
  have hmap : (not f).mapChildren (simplify · .modal) = not (f.simplify .modal) :=
    IsUnary.not.mapChildren _ f
  have hnot : (not f).IsValid := hf
  rw [← simplify_mapChildren hnot, hmap,
    simplify_not_modal (isNormal_simplify .modal hf) (isValid_simplify .modal hf)]

theorem simplify_not_not {f : Formula} (hf : f.IsValid) :
    (not (not f)).simplify .modal = f.simplify .modal := by
  have hnot : (not f).IsValid := hf
  rw [simplify_not_eq_dual hnot, simplify_not_eq_dual hf, dual_dual (isValid_simplify .modal hf)]

end Formula

end LinearTemporal

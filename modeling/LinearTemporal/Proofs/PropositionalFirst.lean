import LinearTemporal.Proofs.Duality
import LinearTemporal.Proofs.SizeBound

/-!
# Propositional rules before the modal ones

What the modal strategy makes of a formula does not change if a propositional rule is applied
anywhere in it beforehand, with one exception: `complementary_operands` recognises a formula
beside its negation, and pushing the negation down can hide the two from each other.  Of a
leaf there is nothing to hide.  So if a propositional simplification gets by with complementary
leaves, the modal simplification of its result is the modal simplification of the formula.
-/

namespace LinearTemporal

open Formula Simplification

/-!
## Complementary leaves

The propositional rules once more, where the last of them compares the leaves among the
operands and no others.  It applies more rarely than the rule whose place it takes.  As
long as that one does not fire, a run cannot tell the two lists of rules apart.
-/

namespace Rule

def complementaryLeaves : Formula → Option Formula
  | .junction k operands =>
      complementaryOperands (.junction k (operands.filter fun f => f.children.isEmpty))
  | _ => none

def byLeaves (rule : Rule) : Rule :=
  if rule.name = "complementary_operands" then { rule with transform := complementaryLeaves }
  else rule

def propositionalByLeaves : List Rule :=
  propositional.map byLeaves

theorem byLeaves_of_name_eq {rule : Rule} (h : rule.name = "complementary_operands") :
    rule.byLeaves = { rule with transform := complementaryLeaves } :=
  if_pos h

theorem byLeaves_of_name_ne {rule : Rule} (h : rule.name ≠ "complementary_operands") :
    rule.byLeaves = rule :=
  if_neg h

theorem complementaryLeaves_eq_some {f g : Formula} (h : complementaryLeaves f = some g) :
    ∃ k fs c c', f = junction k fs ∧ (c ∈ fs ∧ c.children = []) ∧ (c' ∈ fs ∧ c'.children = []) ∧
      c.complement? = some c' ∧ g = const k.absorbing := by
  unfold complementaryLeaves at h
  split at h
  · rename_i k fs
    rcases complementaryOperands_eq_some h with ⟨_, _, c, c', heq, hc, hc', hcomplement, rfl⟩
    cases heq
    simp only [List.mem_filter, List.isEmpty_iff] at hc hc'
    exact ⟨k, fs, c, c', rfl, hc, hc', hcomplement, rfl⟩
  · cases h

theorem complementaryOperands_of_leaves {f g : Formula} (h : complementaryLeaves f = some g) :
    complementaryOperands f = some g := by
  rcases complementaryLeaves_eq_some h with
    ⟨k, fs, c, c', rfl, ⟨hc, _⟩, ⟨hc', _⟩, hcomplement, rfl⟩
  rcases Option.isSome_iff_exists.mp (isSome_complementaryOperands hc hc' hcomplement) with ⟨g, hg⟩
  rcases complementaryOperands_eq_some hg with ⟨_, _, _, _, heq, _, _, _, rfl⟩
  cases heq
  exact hg

theorem apply_of_byLeaves {rule : Rule} (hrule : rule ∈ propositional) {f g : Formula}
    (h : rule.byLeaves.apply f = some g) : rule.apply f = some g := by
  by_cases hname : rule.name = "complementary_operands"
  · rw [byLeaves_of_name_eq hname] at h
    simp only [propositional, List.mem_cons, List.not_mem_nil, or_false] at hrule
    rcases hrule with rfl | rfl | rfl | rfl
    · exact absurd hname (by decide)
    · exact absurd hname (by decide)
    · exact absurd hname (by decide)
    · have htransform := transform_of_apply h
      have hoperands := complementaryOperands_of_leaves htransform
      rcases complementaryLeaves_eq_some htransform with ⟨_, _, _, _, rfl, _, _, _, rfl⟩
      simp [apply, hoperands]
  · rw [byLeaves_of_name_ne hname] at h
    exact h

theorem firesAlike_map_byLeaves {rules : List Rule}
    (hrules : ∀ rule ∈ rules, ∀ {f g}, rule.byLeaves.apply f = some g → rule.apply f = some g) :
    FiresAlike (fun name => name ≠ "complementary_operands") rules (rules.map byLeaves) := by
  intro f hfired
  induction rules with
  | nil => rfl
  | cons rule rules ih =>
      cases happly : rule.apply f with
      | some g =>
          have hfirst : firstApplicable f (rule :: rules) = some (rule, g) := by
            simp [firstApplicable, happly]
          have hname := hfired _ hfirst
          rw [hfirst, List.map_cons, byLeaves_of_name_ne hname]
          simp [firstApplicable, happly]
      | none =>
          have hskip : firstApplicable f (rule :: rules) = firstApplicable f rules := by
            simp [firstApplicable, happly]
          have hnone : rule.byLeaves.apply f = none := by
            rw [Option.eq_none_iff_forall_ne_some]
            intro g hg
            rw [hrules rule List.mem_cons_self hg] at happly
            cases happly
          rw [hskip] at hfired ⊢
          rw [List.map_cons, ← ih (fun r hr => hrules r (List.mem_cons_of_mem rule hr)) hfired]
          simp [firstApplicable, hnone]

theorem firesAlike_propositionalByLeaves :
    FiresAlike (fun name => name ≠ "complementary_operands") Strategy.propositional.rules
      propositionalByLeaves :=
  firesAlike_map_byLeaves fun _ hrule => apply_of_byLeaves hrule

end Rule

namespace Formula

/-!
## Formulas that the modal strategy does not tell apart

Putting such parts together again gives such formulas.
-/

/-- From a valid formula one comes to a valid formula with the same modal simplification. -/
def ModallyAlike (f g : Formula) : Prop :=
  f.IsValid → g.IsValid ∧ f.simplify .modal = g.simplify .modal

theorem isCongruence_modallyAlike : IsCongruence ModallyAlike := by
  refine isCongruence_ofValid (fun _ => rfl) ?_ ?_ ?_
  · intro op f g hop hf hg h
    apply simplify_congr (hop.isValid_iff.mpr hf) (hop.isValid_iff.mpr hg)
    rw [hop.mapChildren, hop.mapChildren, h]
  · intro op f f' g g' hop hvalid hvalid' h h'
    apply simplify_congr hvalid hvalid'
    rw [hop.mapChildren, hop.mapChildren, h, h']
  · intro k fs change hjunction hvalid hchange
    have hmap : fs.map (simplify · .modal) = (fs.map change).map (simplify · .modal) := by
      rw [List.map_map]
      exact List.map_congr_left hchange
    rw [← simplify_join_simplify (Or.inr rfl) (List.forall_mem_map.mpr hvalid), ← hmap,
      ← mapChildren_junction _ hjunction, simplify_mapChildren hjunction]

/-!
## Single laws

No operand of a valid junction is taken apart, so a law about its operands can be read
off what joining them comes to.  The law for complements is the one that is left out; a
leaf beside its complement decides a junction for the modal strategy as well.
-/

section

variable {k : Connective} {fs : List Formula} (hvalid : (junction k fs).IsValid)

include hvalid

theorem isNormal_of_mem_of_isJunction {f : Formula} (hf : f ∈ fs) (hk : f.isJunction k = true) :
    f.IsNormal Strategy.modal.rules := by
  rw [((isValid_junction.mp hvalid).2.2 f hf).1] at hk
  cases hk

theorem simplify_junction_of_absorbing_mem (h : const k.absorbing ∈ fs) :
    (junction k fs).simplify .modal = const k.absorbing := by
  rw [← join_eq_junction hvalid]
  exact simplify_join_of_absorbing_mem_map Strategy.noConfusion (fun f => IsValid.of_mem hvalid)
    (fun f hf => isNormal_of_mem_of_isJunction hvalid hf) h (simplify_const .modal _)

theorem simplify_join_filter (habsorbing : const k.absorbing ∉ fs) :
    (join k (fs.filter (fun f => f.constant?.isNone))).simplify .modal =
      (junction k fs).simplify .modal := by
  have hkept : ∀ f ∈ fs.filter (fun f => f.constant?.isNone), f ∈ fs :=
    fun f hf => (List.mem_filter.mp hf).1
  rw [← join_eq_junction hvalid]
  by_cases hneutral : const k.neutral ∈ fs
  · have hcons : join k fs =
        join k (const k.neutral :: fs.filter (fun f => f.constant?.isNone)) := by
      apply join_congr_mem
      intro f
      rw [List.mem_cons, mem_filter_constant?_iff habsorbing]
      by_cases heq : f = const k.neutral
      · simp [heq, hneutral]
      · simp [heq]
    rw [hcons, simplify_join_neutral_cons Strategy.noConfusion
      (fun f hf => IsValid.of_mem hvalid (hkept f hf))
      fun f hf => isNormal_of_mem_of_isJunction hvalid (hkept f hf)]
  · congr 1
    apply join_congr_mem
    intro f
    rw [mem_filter_constant?_iff habsorbing]
    exact and_iff_left_of_imp fun hf heq => hneutral (heq ▸ hf)

end

theorem simplify_of_foldConstants {f g : Formula} (hf : f.IsValid)
    (h : Rule.foldConstants f = some g) : f.simplify .modal = g.simplify .modal := by
  unfold Rule.foldConstants at h
  split at h
  · rename_i value
    cases h
    cases value <;> rfl
  · split at h
    · rename_i habsorbing
      cases h
      rw [simplify_junction_of_absorbing_mem hf (any_constant?_iff.mp habsorbing), simplify_const]
    · rename_i habsorbing
      rw [any_constant?_iff] at habsorbing
      split at h
      · cases h
        exact (simplify_join_filter hf habsorbing).symm
      · cases h
  · cases h

theorem simplify_of_doubleNegation {f g : Formula} (hf : f.IsValid)
    (h : Rule.doubleNegation f = some g) : f.simplify .modal = g.simplify .modal := by
  unfold Rule.doubleNegation at h
  split at h
  · cases h
    have hg : g.IsValid := hf
    exact simplify_not_not hg
  · cases h

theorem simplify_of_negateLeaf {f g : Formula} (h : Rule.negateLeaf f = some g) :
    f.simplify .modal = g.simplify .modal := by
  unfold Rule.negateLeaf at h
  split at h
  · cases h
    exact simplify_not (Or.inl rfl) (isNormal_of_children_eq_nil rfl rfl) rfl
  · cases h
    exact simplify_not (Or.inl rfl) (isNormal_of_children_eq_nil rfl rfl) rfl
  · cases h

theorem simplify_of_complementaryLeaves {f g : Formula} (hf : f.IsValid)
    (h : Rule.complementaryLeaves f = some g) : f.simplify .modal = g.simplify .modal := by
  rcases Rule.complementaryLeaves_eq_some h with
    ⟨k, fs, leaf, leaf', rfl, ⟨hmem, hleaf⟩, ⟨hmem', hleaf'⟩, hcomplement, rfl⟩
  have hfs : ∀ f ∈ fs, f.IsValid := fun f => IsValid.of_mem hf
  have hnormal : ∀ c ∈ fs, c.children = [] → c.IsNormal Strategy.modal.rules :=
    fun c hc => isNormal_of_children_eq_nil (hfs c hc)
  have hstrands : ∀ c ∈ fs, c.children = [] → ∀ x ∈ strands .modal k c,
      x ∈ strands .modal k (join k (fs.map (simplify · .modal))) := by
    intro c hc hchildren x hx
    rw [← simplify_of_isNormal (hnormal c hc hchildren)] at hx
    exact mem_strands_join_map.mpr ⟨c, hc, hx⟩
  have hjunction := (isValid_junction.mp hf).2.2
  have hdecided := isDecided_of_complement (Or.inr rfl) hcomplement (hnormal _ hmem hleaf)
    (hfs _ hmem) (hjunction _ hmem).1 (hjunction _ hmem').1 (hstrands _ hmem hleaf)
    (hstrands _ hmem' hleaf')
  rw [← join_eq_junction hf, ← simplify_join_simplify (Or.inr rfl) hfs,
    (keepsStrands_join_map (Or.inr rfl) hfs).decided hdecided, simplify_const]

theorem modallyAlike_of_apply {rule : Rule} (hrule : rule ∈ Rule.propositional)
    (hname : rule.name ≠ "complementary_operands") {f g : Formula}
    (happly : rule.apply f = some g) : ModallyAlike f g := by
  intro hf
  have htransform := Rule.transform_of_apply happly
  have hrules : rule ∈ Strategy.propositional.rules := hrule
  refine ⟨(Rule.Step.of_transform hrules htransform).isValid hf, ?_⟩
  simp only [Rule.propositional, List.mem_cons, List.not_mem_nil, or_false] at hrule
  rcases hrule with rfl | rfl | rfl | rfl
  · exact simplify_of_foldConstants hf htransform
  · exact simplify_of_doubleNegation hf htransform
  · exact simplify_of_negateLeaf htransform
  · exact absurd rfl hname

theorem respects_modallyAlike : Respects Rule.propositionalByLeaves ModallyAlike where
  congruence := isCongruence_modallyAlike
  trans := by
    intro f g h hfg hgh hf
    rcases hfg hf with ⟨hg, hfgeq⟩
    rcases hgh hg with ⟨hh, hgheq⟩
    exact ⟨hh, hfgeq.trans hgheq⟩
  fire := by
    intro rule f g hrule happly
    rcases List.mem_map.mp hrule with ⟨rule, hmem, rfl⟩
    by_cases hname : rule.name = "complementary_operands"
    · rw [Rule.byLeaves_of_name_eq hname] at happly
      have htransform := Rule.transform_of_apply happly
      intro hf
      refine ⟨?_, simplify_of_complementaryLeaves hf htransform⟩
      rcases Rule.complementaryLeaves_eq_some htransform with ⟨_, _, _, _, _, _, _, _, rfl⟩
      rfl
    · rw [Rule.byLeaves_of_name_ne hname] at happly
      exact modallyAlike_of_apply hmem hname happly

end Formula

/-!
The rules that fired in a run are told by name.  Where leaves are all that is recognised
as complementary, the propositional rules may be applied first.
-/

def Simplifier.firedRules (s : Simplifier) (f : Formula) : List String :=
  (s.run f).2.ruleCounts.keys

namespace Formula

/-- Complementary operands other than leaves make no difference to what the propositional
strategy gives. -/
def DecidedByLeaves (f : Formula) : Prop :=
  (runPasses (pass 64 Rule.propositionalByLeaves) 64 f).formula = f.simplify .propositional

theorem decidedByLeaves_of_not_mem {f : Formula} (hf : f.IsValid)
    (h : "complementary_operands" ∉ Simplifier.firedRules ⟨.propositional, 64⟩ f) :
    f.DecidedByLeaves := by
  have hfired : ∀ name ∈ (runPasses (pass 64 Strategy.propositional.rules) 64 f).fired,
      name ≠ "complementary_operands" := by
    rintro name hname rfl
    exact h (OrderedMap.mem_keys_tally.mpr hname)
  have hends : ∀ g : Formula, g.IsValid →
      (pass 64 Strategy.propositional.rules g).formula.IsValid ∧
        (pass 64 Strategy.propositional.rules g).exhausted = false := by
    intro g hg
    exact ⟨((respects_weight .propositional).pass 64 g hg).1,
      (isComplete_pass .propositional (by decide) hg).exhausted⟩
  have hmatches := matches_pass Rule.firesAlike_propositionalByLeaves
    (Nat.le_of_eq (List.length_map _).symm) (Nat.le_refl 64)
  exact congrArg Progress.formula (hmatches.runPasses hends 64 hf hfired)

theorem simplify_simplify_propositional {f : Formula} (hf : f.IsValid) (h : f.DecidedByLeaves) :
    (f.simplify .propositional).simplify .modal = f.simplify .modal := by
  rw [← h]
  exact (respects_modallyAlike.runPasses 64 64 f hf).2.symm

theorem size_simplify_le (s : Strategy) {f : Formula} (hf : f.IsValid) :
    (f.simplify s).size ≤ f.size :=
  Simplifier.size_run_le ⟨s, 64⟩ hf

theorem size_simplify_modal_le {f : Formula} (hf : f.IsValid) (h : f.DecidedByLeaves) :
    (f.simplify .modal).size ≤ (f.simplify .propositional).size := by
  rw [← simplify_simplify_propositional hf h]
  exact size_simplify_le .modal (isValid_simplify .propositional hf)

end Formula

end LinearTemporal

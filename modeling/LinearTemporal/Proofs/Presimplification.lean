import Mathlib.Logic.Relation
import LinearTemporal.Proofs.Flattening

/-!
# Simplifying parts first

Simplification works from the leaves up, so it makes no difference if a part is simplified
beforehand and the formula put together again, part after part in any order.  The one thing
that can get in the way is a junction that is taken apart: a part that was simplified only
further down can collapse into a junction with the connective of the one above it, and then
no node is left at which its operands would be brought together.  For the propositional and
the modal rules even that does no harm.
-/

namespace LinearTemporal

open Formula

/-- Simplifying one node of a formula, with everything above it put together again.
`admits` is asked about every node above it, and what becomes of the part below. -/
inductive Presimplifies (s : Strategy) (admits : Formula → Formula → Prop) :
    Formula → Formula → Prop where
  | node (f : Formula) : Presimplifies s admits f (f.simplify s)
  | part {f part part' : Formula} {before after : List Formula} :
      f.children = before ++ part :: after → Presimplifies s admits part part' →
      admits f part' →
      Presimplifies s admits f (f.withChildren (before ++ part' :: after))

/-- What may become of a part of `f`: with other rules than the propositional and the modal
ones, a part that is taken apart has to be simplified. -/
def Strategy.AdmitsPart (s : Strategy) (f part : Formula) : Prop :=
  s = .propositional ∨ s = .modal ∨
    ∀ k, f.isJunction k = true → part.isJunction k = true → part.simplify s = part

namespace Formula

variable {s : Strategy}

/-!
No part of a valid formula is taken apart.  The parts may be replaced by others that
come to the same, and so simplifying one node beforehand makes no difference.
-/

theorem isValid_withChildren {f : Formula} {parts : List Formula} (hf : f.IsValid)
    (hparts : ∀ g ∈ parts, g.IsValid) : (f.withChildren parts).IsValid := by
  unfold withChildren
  split
  · exact hf
  · split
    · have hbody := hparts _ List.mem_cons_self
      exact hbody
    · have hbody := hparts _ List.mem_cons_self
      exact hbody
    · have hbody := hparts _ List.mem_cons_self
      exact hbody
    · have hbody := hparts _ List.mem_cons_self
      exact hbody
    · exact isValid_untl.mpr ⟨hparts _ (by simp), hparts _ (by simp)⟩
    · exact isValid_release.mpr ⟨hparts _ (by simp), hparts _ (by simp)⟩
    · exact isValid_join hparts
    · exact hf

theorem simplify_join_of_map_eq {k : Connective} {fs gs : List Formula}
    (hvalid : (junction k fs).IsValid) (hgs : ∀ g ∈ gs, g.IsValid)
    (hmap : gs.map (simplify · s) = fs.map (simplify · s))
    (hadmits : ∀ g ∈ gs, s.AdmitsPart (junction k fs) g) :
    (join k gs).simplify s = (junction k fs).simplify s := by
  rw [← simplify_mapChildren hvalid, mapChildren_junction _ hvalid, ← hmap]
  by_cases hs : s = .propositional ∨ s = .modal
  · exact (simplify_join_simplify hs hgs).symm
  · rw [not_or] at hs
    refine (simplify_join_map hgs ?_).symm
    intro g hg hk
    rw [← ((hadmits g hg).resolve_left hs.1).resolve_left hs.2 k (decide_eq_true rfl) hk]
    exact isNormal_simplify s (hgs g hg)

theorem simplify_withChildren {f : Formula} {parts : List Formula} (hf : f.IsValid)
    (hparts : ∀ g ∈ parts, g.IsValid)
    (hmap : parts.map (simplify · s) = f.children.map (simplify · s))
    (hadmits : ∀ g ∈ parts, s.AdmitsPart f g) :
    (f.withChildren parts).simplify s = f.simplify s := by
  have hlength := congrArg List.length hmap
  rw [List.length_map, List.length_map] at hlength
  have hvalid := isValid_withChildren hf hparts
  cases f.arity with
  | leaf hleaf =>
      have hnone : parts = f.children := by
        rw [hleaf] at hlength ⊢
        exact List.length_eq_zero_iff.mp hlength
      rw [hnone, show f.withChildren f.children = f from if_pos rfl]
  | unary hop body =>
      rw [hop.children] at hlength hmap
      rcases List.length_eq_one_iff.mp hlength with ⟨part, rfl⟩
      rw [hop.withChildren] at hvalid ⊢
      have hpart : part.simplify s = body.simplify s := List.singleton_inj.mp hmap
      apply simplify_congr hvalid hf
      rw [hop.mapChildren, hop.mapChildren, hpart]
  | binary hop left right =>
      rw [hop.children] at hlength hmap
      rcases List.length_eq_two.mp hlength with ⟨left', right', rfl⟩
      rw [hop.withChildren] at hvalid ⊢
      simp only [List.map_cons, List.map_nil, List.cons.injEq, and_true] at hmap
      apply simplify_congr hvalid hf
      rw [hop.mapChildren, hop.mapChildren, hmap.1, hmap.2]
  | junction k fs =>
      by_cases heq : parts = fs
      · rw [show (junction k fs).withChildren parts = junction k fs from if_pos heq]
      · rw [show (junction k fs).withChildren parts = join k parts from if_neg heq]
        exact simplify_join_of_map_eq hf hparts hmap hadmits

theorem IsValid.admitsPart {f g : Formula} (hf : f.IsValid) (hg : g ∈ f.children) :
    s.AdmitsPart f g := by
  refine Or.inr (Or.inr ?_)
  intro k hfk hgk
  rw [eq_junction_of_isJunction hfk] at hf hg
  rw [((isValid_junction.mp hf).2.2 g hg).1] at hgk
  cases hgk

end Formula

namespace Presimplifies

variable {s : Strategy}

theorem simplify_eq {f g : Formula} (h : Presimplifies s s.AdmitsPart f g) (hf : f.IsValid) :
    g.IsValid ∧ g.simplify s = f.simplify s := by
  induction h with
  | node f => exact ⟨isValid_simplify s hf, simplify_of_isNormal (isNormal_simplify s hf)⟩
  | @part f part part' before after hchildren _ hadmits ih =>
      have hmem : ∀ g ∈ before ++ part :: after, g.IsValid ∧ s.AdmitsPart f g := by
        intro g hg
        rw [← hchildren] at hg
        exact ⟨hf.children hg, hf.admitsPart hg⟩
      rcases ih (hmem part (by simp)).1 with ⟨hpart, hsimplify⟩
      have hparts : ∀ g ∈ before ++ part' :: after, g.IsValid ∧ s.AdmitsPart f g := by
        intro g hg
        rcases List.mem_append.mp hg with hg | hg
        · exact hmem g (List.mem_append_left _ hg)
        · rcases List.mem_cons.mp hg with rfl | hg
          · exact ⟨hpart, hadmits⟩
          · exact hmem g (List.mem_append_right _ (List.mem_cons_of_mem _ hg))
      have hmap : (before ++ part' :: after).map (simplify · s) =
          f.children.map (simplify · s) := by
        rw [hchildren]
        simp only [List.map_append, List.map_cons, hsimplify]
      exact ⟨isValid_withChildren hf fun g hg => (hparts g hg).1,
        simplify_withChildren hf (fun g hg => (hparts g hg).1) hmap fun g hg => (hparts g hg).2⟩

theorem simplify_eq_of_reflTransGen {f g : Formula}
    (h : Relation.ReflTransGen (Presimplifies s s.AdmitsPart) f g) (hf : f.IsValid) :
    g.IsValid ∧ g.simplify s = f.simplify s := by
  induction h with
  | refl => exact ⟨hf, rfl⟩
  | tail _ hstep ih =>
      rcases ih with ⟨hvalid, hsimplify⟩
      rcases hstep.simplify_eq hvalid with ⟨hvalid', hsimplify'⟩
      exact ⟨hvalid', hsimplify'.trans hsimplify⟩

end Presimplifies

namespace Formula

/-- The parts of a formula may all be simplified beforehand, and so may any of its nodes one
after the other, as long as what is taken apart is simplified; with the propositional or the
modal rules, without this condition. -/
theorem simplify_presimplified (s : Strategy) {f : Formula} (hf : f.IsValid) :
    (f.withChildren (f.children.map (simplify · s))).simplify s = f.simplify s ∧
      ∀ g, Relation.ReflTransGen (Presimplifies s s.AdmitsPart) f g →
        g.simplify s = f.simplify s :=
  ⟨simplify_mapChildren hf, fun _ h => (Presimplifies.simplify_eq_of_reflTransGen h hf).2⟩

theorem simplify_presimplified_or :
    let p : Formula := literal "p" false
    let f : Formula := not (junction .or [p, not p])
    let g : Formula := not (const true)
    f.IsValid ∧ Relation.ReflTransGen
        (Presimplifies .propositional (Strategy.AdmitsPart .propositional)) f g ∧
      (f.withChildren (f.children.map (simplify · .propositional))).simplify .propositional =
        f.simplify .propositional ∧
      g.simplify .propositional = f.simplify .propositional := by
  intro p f g
  have hf : f.IsValid := rfl
  have hpart : Presimplifies .propositional (Strategy.AdmitsPart .propositional)
      (junction .or [p, not p]) (const true) := by
    have hor : (junction .or [p, not p]).simplify .propositional = const true := by
      decide +kernel
    rw [← hor]
    exact Presimplifies.node _
  have hg : Presimplifies .propositional (Strategy.AdmitsPart .propositional) f g :=
    @Presimplifies.part _ _ f _ _ [] [] rfl hpart (Or.inl rfl)
  have h := simplify_presimplified .propositional hf
  exact ⟨hf, Relation.ReflTransGen.single hg, h.1, h.2 g (Relation.ReflTransGen.single hg)⟩

/-- Without the condition, a disjunction that collapses to the conjunction left in it can be
taken apart before its operands were brought together. -/
theorem simplify_presimplified_ne :
    let p : Formula := literal "p" false
    let b : Formula := next (literal "b" false)
    let q : Formula := literal "q" false
    let f : Formula := junction .and [p, junction .or
      [junction .and [b, next (always q)], junction .and [b, always (next q)]]]
    let g : Formula := junction .and [p, b, next (always q)]
    f.IsValid ∧ Presimplifies .pullNext (fun _ _ => True) f g ∧
      g.simplify .pullNext ≠ f.simplify .pullNext := by
  intro p b q f g
  have hq : Presimplifies .pullNext (fun _ _ => True) (always (next q)) (next (always q)) := by
    have hnext : (always (next q)).simplify .pullNext = next (always q) := by
      decide +kernel
    rw [← hnext]
    exact Presimplifies.node _
  have hand : Presimplifies .pullNext (fun _ _ => True) (junction .and [b, always (next q)])
      (junction .and [b, next (always q)]) :=
    @Presimplifies.part _ _ (junction .and [b, always (next q)]) _ _ [b] [] rfl hq trivial
  have hor : Presimplifies .pullNext (fun _ _ => True)
      (junction .or [junction .and [b, next (always q)], junction .and [b, always (next q)]])
      (junction .and [b, next (always q)]) :=
    @Presimplifies.part _ _ (junction .or [junction .and [b, next (always q)],
      junction .and [b, always (next q)]]) _ _ [junction .and [b, next (always q)]] []
      rfl hand trivial
  refine ⟨rfl, @Presimplifies.part _ _ f _ _ [p] [] rfl hor trivial, ?_⟩
  decide +kernel

end Formula

end LinearTemporal

import LinearTemporal.Proofs.SubsumptionLast

/-!
# Beside a formula that is taken apart

Where a junction is joined with another formula under its own connective, its operands are put
beside that formula and simplified one by one.  What the rules then see is not what the junction
comes to by itself.  It is what the modal rules make of the simplified operands, because these
rules come first and do not mind in which order operands are put together.

So a formula may be replaced, before it is joined, by what the modal rules gather from its
simplified operands; if the operands of that are simplified, subsumption goes on from there.
-/

namespace LinearTemporal

namespace Formula

variable {s : Strategy} {k : Connective}

/-!
## Simplified operands

Beside a formula that is not taken apart, the operands of the other may be simplified
beforehand.  Joining normal formulas leaves the modal rules the first word.
-/

theorem isNormal_and_isValid_of_mem_operandsUnder {f : Formula} (hf : f.IsValid) :
    ∀ g ∈ (f.operandsUnder k).map (simplify · s), g.IsNormal s.rules ∧ g.IsValid :=
  isNormal_and_isValid_of_mem_map fun _ hg => (hf.operandsUnder hg).2

theorem simplify_join_pair {f g : Formula} (hf : f.IsValid) (hg : g.IsValid)
    (hk : g.isJunction k = false) : (join k [f, g]).simplify s =
      (join k ((f.operandsUnder k).map (simplify · s) ++ [g.simplify s])).simplify s := by
  have hfs : ∀ c ∈ f.operandsUnder k ++ [g], c.isJunction k = false ∧ c.IsValid :=
    List.forall_mem_append.mpr ⟨fun _ => hf.operandsUnder, List.forall_mem_singleton.mpr ⟨hk, hg⟩⟩
  have hflat : ∀ c ∈ f.operandsUnder k ++ [g], c.isJunction k = true → c.IsNormal s.rules := by
    intro c hc htrue
    rw [(hfs c hc).1] at htrue
    cases htrue
  rw [← join_operandsUnder_append hf, ← simplify_join_map (fun c hc => (hfs c hc).2) hflat,
    List.map_append, List.map_singleton]

theorem modalFirst_join {fs : List Formula}
    (hfs : ∀ f ∈ fs, f.IsNormal Strategy.aggressive.rules ∧ f.IsValid) : (join k fs).ModalFirst :=
  modalFirst_of_children (isValid_join fun f hf => (hfs f hf).2)
    (isNormal_children_join (fun f hf => (hfs f hf).1) fun f hf => (hfs f hf).2)

/-!
## What is gathered from the operands

It comes to what the formula comes to.  From a formula that is not taken apart nothing
else is gathered than that.  Beside a formula that is not taken apart, the modal rules
start from it.
-/

/-- What the modal rules make of the operands of a formula in a junction with connective `k`,
once these are simplified. -/
def gathered (k : Connective) (f : Formula) : Formula :=
  (join k ((f.operandsUnder k).map (simplify · .aggressive))).simplify .modal

section

variable {f : Formula} (hf : f.IsValid)

include hf

theorem isValid_join_operands :
    (join k ((f.operandsUnder k).map (simplify · .aggressive))).IsValid :=
  isValid_join fun g hg => (isNormal_and_isValid_of_mem_operandsUnder hf g hg).2

theorem isValid_gathered : (f.gathered k).IsValid :=
  isValid_simplify .modal (isValid_join_operands hf)

theorem isNormal_gathered : (f.gathered k).IsNormal Strategy.modal.rules :=
  isNormal_simplify .modal (isValid_join_operands hf)

theorem simplify_gathered : (f.gathered k).simplify .aggressive = f.simplify .aggressive := by
  have hfirst : (join k ((f.operandsUnder k).map (simplify · .aggressive))).ModalFirst :=
    modalFirst_join (isNormal_and_isValid_of_mem_operandsUnder hf)
  rw [gathered, ← hfirst, simplify_join_operandsUnder hf]

theorem gathered_of_isJunction_eq_false (hk : f.isJunction k = false) :
    f.gathered k = f.simplify .aggressive := by
  rw [gathered, operandsUnder_of_isJunction_eq_false hk, List.map_singleton,
    join_singleton k (isValid_simplify _ hf), simplify_of_isNormal (isNormal_simplify _ hf).modal]

theorem gathered_of_isNormal (h : f.IsNormal Strategy.aggressive.rules) : f.gathered k = f := by
  have hmap : (f.operandsUnder k).map (simplify · .aggressive) = f.operandsUnder k :=
    (List.map_congr_left fun g hg => simplify_of_isNormal (h.operandsUnder hg)).trans
      (List.map_id' _)
  rw [gathered, hmap, join_operandsUnder hf, simplify_of_isNormal h.modal]

section

variable {g : Formula} (hg : g.IsValid) (hk : g.isJunction k = false)

include hg hk

theorem simplify_join_gathered : (join k [f, g]).simplify .aggressive =
    ((join k [f.gathered k, g.simplify .aggressive]).simplify .modal).simplify .aggressive := by
  have hoperands := isNormal_and_isValid_of_mem_operandsUnder (s := .aggressive) (k := k) hf
  have hgnormal := isNormal_simplify .aggressive hg
  have hgvalid := isValid_simplify .aggressive hg
  have hfirst : (join k ((f.operandsUnder k).map (simplify · .aggressive) ++
      [g.simplify .aggressive])).ModalFirst :=
    modalFirst_join (List.forall_mem_append.mpr
      ⟨hoperands, List.forall_mem_singleton.mpr ⟨hgnormal, hgvalid⟩⟩)
  have hjoin := isValid_join_operands (k := k) hf
  have hpair : ∀ c ∈ [join k ((f.operandsUnder k).map (simplify · .aggressive)),
      g.simplify .aggressive], c.IsValid := by
    simp [hjoin, hgvalid]
  have hmodal := simplify_join_simplify (k := k) (Or.inr rfl) hpair
  rw [List.map_cons, List.map_singleton, simplify_of_isNormal hgnormal.modal] at hmodal
  rw [simplify_join_pair hf hg hk, hfirst, gathered, hmodal,
    ← join_cons_join (mt List.map_eq_nil_iff.mp (operandsUnder_ne_nil hf))
      fun c hc => (hoperands c hc).2]

/-- If the operands of what is gathered are simplified, it may stand in for the formula. -/
theorem simplify_join_gathered_of_isNormal
    (h : ∀ c ∈ (f.gathered k).operandsUnder k, c.IsNormal Strategy.aggressive.rules) :
    (join k [f, g]).simplify .aggressive =
      (join k ((f.gathered k).operandsUnder k ++ [g.simplify .aggressive])).simplify
        .aggressive := by
  have hgathered := isValid_gathered (k := k) hf
  have hfirst : (join k ((f.gathered k).operandsUnder k ++
      [g.simplify .aggressive])).ModalFirst :=
    modalFirst_join (List.forall_mem_append.mpr
      ⟨fun c hc => ⟨h c hc, (hgathered.operandsUnder hc).2⟩,
        List.forall_mem_singleton.mpr ⟨isNormal_simplify _ hg, isValid_simplify _ hg⟩⟩)
  rw [simplify_join_gathered hf hg hk, hfirst, join_operandsUnder_append hgathered]

end

end

end Formula

end LinearTemporal

import LinearTemporal.Proofs.FiringLimit

/-!
# Simplifying from the leaves up

Three equations say what a simplification of a valid formula comes to: the parts may be
simplified beforehand; with normal parts, the first rule that has an outcome may be fired
beforehand; and a normal formula stays as it is.  They follow from reduction without a limit,
which has one outcome only, so later proofs need neither limits nor passes.

The parts of a junction may be simplified beforehand even where joining takes them apart, as
long as those that are taken apart are normal.
-/

namespace LinearTemporal

open Simplification

/-!
## The first outcome

On valid formulas an outcome is a change, so the first rule that has one is the first
that applies.
-/

namespace Rule

/-- The outcome of the first of several rules that has one. -/
def firstOutcome (f : Formula) (rules : List Rule) : Option Formula :=
  rules.findSome? (fun rule => rule.transform f)

section

variable {s : Strategy} {f : Formula} (hf : f.IsValid)

include hf

theorem apply_eq_transform {rule : Rule} (hrule : rule ∈ s.rules) :
    rule.apply f = rule.transform f := by
  cases htransform : rule.transform f with
  | none => simp [apply, htransform]
  | some g =>
      have hlt := (Step.of_transform hrule htransform).weight_lt hf
      have hne : g ≠ f := by
        rintro rfl
        exact Nat.lt_irrefl _ hlt
      simp [apply, htransform, hne]

theorem map_snd_firstApplicable {rules : List Rule} (hrules : rules ⊆ s.rules) :
    (firstApplicable f rules).map Prod.snd = firstOutcome f rules := by
  induction rules with
  | nil => rfl
  | cons rule rules ih =>
      rw [List.cons_subset] at hrules
      rw [firstApplicable, firstOutcome, List.findSome?_cons, apply_eq_transform hf hrules.1]
      cases rule.transform f with
      | none => exact ih hrules.2
      | some g => rfl

theorem exists_firstApplicable {g : Formula} (h : firstOutcome f s.rules = some g) :
    ∃ rule, firstApplicable f s.rules = some (rule, g) := by
  rw [← map_snd_firstApplicable hf (List.Subset.refl _)] at h
  rcases Option.map_eq_some_iff.mp h with ⟨⟨rule, _⟩, hfirst, rfl⟩
  exact ⟨rule, hfirst⟩

theorem firstApplicable_of_firstOutcome (h : firstOutcome f s.rules = none) :
    firstApplicable f s.rules = none := by
  rw [← map_snd_firstApplicable hf (List.Subset.refl _)] at h
  exact Option.map_eq_none_iff.mp h

end

end Rule

namespace Formula

/-!
## Three equations

Without a limit, a pass is the only outcome.  So where the parts are normal, what the
root settles to is the simplification, and formulas whose parts come to the same come to
the same.
-/

section

variable (s : Strategy) {f : Formula}

theorem isValid_simplify (hf : f.IsValid) : (f.simplify s).IsValid :=
  Simplifier.isValid_run { strategy := s } hf

theorem isNormal_simplify (hf : f.IsValid) : (f.simplify s).IsNormal s.rules :=
  Simplifier.isNormal_run { strategy := s } (Nat.le_add_left 1 63) hf

theorem simplify_eq_pass (hf : f.IsValid) : f.simplify s = (pass 64 s.rules f).formula :=
  Simplifier.formula_run_eq_pass { strategy := s } (Nat.le_add_left 1 63) hf

variable {s}

theorem simplify_of_isNormal (h : f.IsNormal s.rules) : f.simplify s = f :=
  (Simplifier.run_of_isNormal { strategy := s } (Nat.le_add_left 1 63) h).1

theorem IsNormal.firstOutcome_eq_none (h : f.IsNormal s.rules)
    (hf : f.IsValid) : Rule.firstOutcome f s.rules = none := by
  apply List.findSome?_eq_none_iff.mpr
  intro rule hrule
  apply Option.not_isSome_iff_eq_none.mp
  intro hsome
  exact h.not_isRedex hf ⟨rule, hrule, hsome⟩

/-- Reduction without a limit. -/
abbrev FreelyReduces (s : Strategy) (f g : Formula) : Prop :=
  ∃ fired, Reduces s.rules (fun _ _ => True) f g fired

theorem determines_freely (hf : f.IsValid) :
    Determines s.rules (fun _ _ => True) (pass 64 s.rules) f :=
  determines_pass s (Nat.le_add_left 1 63) (fun _ _ _ => trivial) hf

theorem freelyReduces_iff (hf : f.IsValid) {g : Formula} :
    FreelyReduces s f g ↔ g = f.simplify s := by
  have hpass : Determines s.rules (fun _ _ => True) (pass 64 s.rules) f := determines_freely hf
  rw [simplify_eq_pass s hf]
  constructor
  · rintro ⟨fired, hreduces⟩
    exact ((hpass g fired).mp hreduces).1
  · intro heq
    exact ⟨_, (hpass g _).mpr ⟨heq, rfl⟩⟩

theorem exists_reducesAll_iff {fs gs : List Formula} (hfs : ∀ f ∈ fs, f.IsValid) :
    (∃ fired, ReducesAll s.rules (fun _ _ => True) fs gs fired) ↔ gs = fs.map (simplify · s) := by
  have hpass : ∀ fired, ReducesAll s.rules (fun _ _ => True) fs gs fired ↔
      gs = (fs.map (pass 64 s.rules)).map Outcome.formula ∧
        fired = (fs.map (pass 64 s.rules)).flatMap Outcome.fired :=
    fun _ => reducesAll_iff fun f hf => determines_freely (hfs f hf)
  have hmap : (fs.map (pass 64 s.rules)).map Outcome.formula = fs.map (simplify · s) := by
    rw [List.map_map]
    exact List.map_congr_left fun f hf => (simplify_eq_pass s (hfs f hf)).symm
  rw [← hmap]
  constructor
  · rintro ⟨fired, hreduces⟩
    exact ((hpass fired).mp hreduces).1
  · intro heq
    exact ⟨_, (hpass _).mpr ⟨heq, rfl⟩⟩

theorem simplify_eq_of_settles (hf : f.IsValid) (hparts : ∀ g ∈ f.children, g.IsNormal s.rules)
    {g : Formula} {firings : Nat} {fired : List String}
    (h : Settles s.rules (fun _ _ => True) firings f g fired) : f.simplify s = g := by
  have hmap : f.children = f.children.map (simplify · s) :=
    ((List.map_congr_left fun g hg => simplify_of_isNormal (hparts g hg)).trans
      (List.map_id' _)).symm
  rcases (exists_reducesAll_iff fun _ => hf.children).mpr hmap with ⟨fired', hreduces⟩
  have hself : f.withChildren f.children = f := if_pos rfl
  rw [← hself] at h
  exact ((freelyReduces_iff hf).mp ⟨_, Reduces.intro hreduces h trivial⟩).symm

theorem exists_settles (hf : f.IsValid) : ∃ firings fired,
    Settles s.rules (fun _ _ => True) firings (f.mapChildren (simplify · s)) (f.simplify s)
      fired := by
  rcases (freelyReduces_iff hf).mpr rfl with ⟨_, hreduces⟩
  cases hreduces with
  | intro hparts hsettles _ =>
      have hmap := (exists_reducesAll_iff fun _ => hf.children).mp ⟨_, hparts⟩
      rw [hmap] at hsettles
      exact ⟨_, _, hsettles⟩

end

section

variable {s : Strategy} {f : Formula} (hf : f.IsValid)

include hf

theorem isValid_mapChildren_simplify : (f.mapChildren (simplify · s)).IsValid := by
  have hvalid : f.IsValid → (f.mapChildren (simplify · s)).IsValid ∧
      (f.mapChildren (simplify · s)).weight ≤ f.weight :=
    (respects_weight s).congruence.mapChildren fun g _ => (respects_weight s).run (s := ⟨s, 64⟩) g
  exact (hvalid hf).1

theorem isNormal_of_mem_children_mapChildren :
    ∀ g ∈ (f.mapChildren (simplify · s)).children, g.IsNormal s.rules :=
  mem_children_mapChildren (fun _ => IsNormal.children)
    fun _ hg => isNormal_simplify s (hf.children hg)

/-- The parts may be simplified beforehand. -/
theorem simplify_mapChildren : (f.mapChildren (simplify · s)).simplify s = f.simplify s := by
  rcases exists_settles hf with ⟨firings, fired, hsettles⟩
  exact simplify_eq_of_settles (isValid_mapChildren_simplify hf)
    (isNormal_of_mem_children_mapChildren hf) hsettles

theorem simplify_congr {g : Formula} (hg : g.IsValid)
    (h : f.mapChildren (simplify · s) = g.mapChildren (simplify · s)) :
    f.simplify s = g.simplify s := by
  rw [← simplify_mapChildren hf, h, simplify_mapChildren hg]

variable (hparts : ∀ g ∈ f.children, g.IsNormal s.rules)

include hparts

/-- With normal parts, the first rule that has an outcome may be fired beforehand. -/
theorem simplify_of_firstOutcome {g : Formula} (h : Rule.firstOutcome f s.rules = some g) :
    f.simplify s = g.simplify s := by
  rcases Rule.exists_firstApplicable hf h with ⟨rule, hfirst⟩
  rcases Rule.mem_and_apply_of_firstApplicable hfirst with ⟨hrule, happly⟩
  have hg : g.IsValid := (Rule.Step.of_mem_rules hrule happly).isValid hf
  rcases exists_settles hg with ⟨firings, fired, hsettles⟩
  rcases (exists_reducesAll_iff fun _ => hg.children).mpr rfl with ⟨fired', hreduces⟩
  exact simplify_eq_of_settles hf hparts (Settles.fire hfirst hreduces hsettles)

theorem simplify_of_firstOutcome_eq_none (h : Rule.firstOutcome f s.rules = none) :
    f.simplify s = f :=
  simplify_eq_of_settles hf hparts (Settles.done (Rule.firstApplicable_of_firstOutcome hf h))

end

/-!
## Parts of what is joined

What is joined may be simplified beforehand, if the junctions that joining takes apart
are normal.  Beside normal operands this holds of the others alone.
-/

theorem isNormal_and_isValid_of_mem_map {s : Strategy} {fs : List Formula}
    (hfs : ∀ f ∈ fs, f.IsValid) :
    ∀ g ∈ fs.map (simplify · s), g.IsNormal s.rules ∧ g.IsValid := by
  intro g hg
  rcases List.mem_map.mp hg with ⟨f, hf, rfl⟩
  exact ⟨isNormal_simplify s (hfs f hf), isValid_simplify s (hfs f hf)⟩

theorem simplify_join_map {s : Strategy} {k : Connective} {fs : List Formula}
    (hfs : ∀ f ∈ fs, f.IsValid) (hflat : ∀ f ∈ fs, f.isJunction k = true → f.IsNormal s.rules) :
    (join k (fs.map (simplify · s))).simplify s = (join k fs).simplify s := by
  have hoperands : join k ((joinOperands k fs).map (simplify · s)) =
      join k (fs.map (simplify · s)) := by
    apply join_congr
    intro x
    simp only [List.mem_map, exists_exists_and_eq_and]
    constructor
    · rintro ⟨g, hg, hx⟩
      rcases mem_joinOperands.mp hg with ⟨f, hf, hgf⟩
      refine ⟨f, hf, ?_⟩
      cases hk : f.isJunction k with
      | true =>
          have hnormal := hflat f hf hk
          rw [simplify_of_isNormal hnormal]
          have hgnormal : g.IsNormal s.rules := by
            rw [eq_junction_of_isJunction hk] at hnormal
            exact hnormal.children g hgf
          rw [simplify_of_isNormal hgnormal, operandsUnder_of_isJunction_eq_false
            ((hfs f hf).operandsUnder hgf).1] at hx
          rcases List.mem_singleton.mp hx with rfl
          exact hgf
      | false =>
          rw [operandsUnder_of_isJunction_eq_false hk] at hgf
          rcases List.mem_singleton.mp hgf with rfl
          exact hx
    · rintro ⟨f, hf, hx⟩
      cases hk : f.isJunction k with
      | true =>
          have hnormal := hflat f hf hk
          rw [simplify_of_isNormal hnormal] at hx
          refine ⟨x, mem_joinOperands.mpr ⟨f, hf, hx⟩, ?_⟩
          have hxnormal : x.IsNormal s.rules := by
            rw [eq_junction_of_isJunction hk] at hnormal
            exact hnormal.children x hx
          rw [simplify_of_isNormal hxnormal,
            operandsUnder_of_isJunction_eq_false ((hfs f hf).operandsUnder hx).1]
          exact List.mem_singleton_self x
      | false =>
          refine ⟨f, mem_joinOperands.mpr ⟨f, hf, ?_⟩, hx⟩
          rw [operandsUnder_of_isJunction_eq_false hk]
          exact List.mem_singleton_self f
  rw [← hoperands]
  rcases join_cases hfs with ⟨hnil, hjoin⟩ | ⟨f, hsingle, hjoin⟩ | ⟨hjoin, hvalid⟩
  · rw [hnil, hjoin]
    rfl
  · have hf : f.IsValid := by
      rw [← hjoin]
      exact isValid_join hfs
    rw [hsingle, hjoin, List.map_singleton, join_singleton k (isValid_simplify s hf),
      simplify_of_isNormal (isNormal_simplify s hf)]
  · rw [hjoin, ← mapChildren_junction _ hvalid, simplify_mapChildren hvalid]

theorem simplify_join_append_map {s : Strategy} {k : Connective} {fs gs : List Formula}
    (hfs : ∀ f ∈ fs, f.IsNormal s.rules ∧ f.IsValid)
    (hgs : ∀ g ∈ gs, g.IsValid ∧ g.isJunction k = false) :
    (join k (fs ++ gs.map (simplify · s))).simplify s = (join k (fs ++ gs)).simplify s := by
  have hmap : fs.map (simplify · s) = fs :=
    (List.map_congr_left fun f hf => simplify_of_isNormal (hfs f hf).1).trans (List.map_id' _)
  have hvalid : ∀ f ∈ fs ++ gs, f.IsValid :=
    List.forall_mem_append.mpr ⟨fun f hf => (hfs f hf).2, fun g hg => (hgs g hg).1⟩
  have hflat : ∀ f ∈ fs ++ gs, f.isJunction k = true → f.IsNormal s.rules := by
    refine List.forall_mem_append.mpr ⟨fun f hf _ => (hfs f hf).1, fun g hg hk => ?_⟩
    rw [(hgs g hg).2] at hk
    cases hk
  rw [← simplify_join_map hvalid hflat, List.map_append, hmap]

end Formula

end LinearTemporal

import LinearTemporal.Proofs.Strands

/-!
# Operands that are junctions themselves

Simplifying an operand of a junction can make it a junction with the same connective, which
is taken apart when the whole is put together again.  With the propositional and the modal
rules this makes no difference to what the whole comes to: by the rules the strands of a
junction with normal operands are kept, or decide it, and a normal formula is determined by
its strands.
-/

namespace LinearTemporal

open Formula Simplification

namespace Rule

theorem mem_and_transform_of_firstOutcome {f g : Formula} {rules : List Rule}
    (h : firstOutcome f rules = some g) : ∃ rule ∈ rules, rule.transform f = some g :=
  List.exists_of_findSome?_eq_some h

theorem step_of_firstOutcome {s : Strategy} (hs : s = .propositional ∨ s = .modal)
    {f g : Formula} (h : firstOutcome f s.rules = some g) :
    PropositionalStep f g ∨ s = .modal ∧ ModalStep f g := by
  rcases mem_and_transform_of_firstOutcome h with ⟨rule, hrule, htransform⟩
  rcases hs with rfl | rfl
  · rcases List.mem_append.mp (show rule ∈ propositional ++ [] from hrule) with hrule | hrule
    · exact Or.inl (PropositionalStep.of_mem hrule htransform)
    · cases hrule
  · rcases List.mem_append.mp (show rule ∈ propositional ++ modal from hrule) with hrule | hrule
    · exact Or.inl (PropositionalStep.of_mem hrule htransform)
    · exact Or.inr ⟨rfl, ModalStep.of_mem hrule htransform⟩

theorem firstOutcome_of_foldConstants {s : Strategy} (hs : s ≠ .pullNext) {f g : Formula}
    (h : foldConstants f = some g) : firstOutcome f s.rules = some g := by
  have hhead : firstOutcome f propositional = some g := by
    simp only [firstOutcome, propositional, List.findSome?_cons, h]
  cases s with
  | pullNext => exact absurd rfl hs
  | propositional => exact hhead
  | modal | aggressive =>
      unfold firstOutcome at hhead ⊢
      rw [Strategy.rules, Strategy.groups, List.flatten_cons, List.findSome?_append, hhead]
      rfl

end Rule

namespace Formula

variable {s : Strategy} {k : Connective} {body? : Formula → Option Formula}
  {wrap : Formula → Formula}

theorem simplify_const (s : Strategy) (value : Bool) : (const value).simplify s = const value := by
  cases value <;> cases s <;> rfl

theorem isNormal_const (s : Strategy) (value : Bool) : (const value).IsNormal s.rules := by
  have h := isNormal_simplify s (f := const value) rfl
  rw [simplify_const] at h
  exact h

theorem weight_simplify_le (s : Strategy) {f : Formula} (hf : f.IsValid) :
    (f.simplify s).weight ≤ f.weight :=
  ((respects_weight s).run (s := ⟨s, 64⟩) f hf).2

/-!
## Junctions with normal operands

The absorbing constant decides a junction, also if it comes from simplifying an
operand.  The neutral constant may be left out, and without the absorbing one what is no
constant is left of the operands.
-/

theorem isNormal_joinOperands {fs : List Formula} (h : ∀ f ∈ fs, f.IsNormal s.rules)
    {g : Formula} (hg : g ∈ joinOperands k fs) : g.IsNormal s.rules :=
  forall_joinOperands (fun _ => IsNormal.children) h g hg

theorem isNormal_operandsUnder_join {fs : List Formula} (h : ∀ f ∈ fs, f.IsNormal s.rules)
    (hvalid : ∀ f ∈ fs, f.IsValid) :
    ∀ g ∈ (join k fs).operandsUnder k, g.IsNormal s.rules := by
  have hoperands : ∀ g ∈ joinOperands k fs, g.IsNormal s.rules :=
    fun _ => isNormal_joinOperands h
  rcases join_cases (k := k) hvalid with ⟨_, hjoin⟩ | ⟨f, hsingle, hjoin⟩ | ⟨hjoin, _⟩
  · rw [hjoin]
    intro g hg
    rw [List.mem_singleton.mp (show g ∈ [const k.neutral] from hg)]
    exact isNormal_const s _
  · rw [hsingle, List.forall_mem_singleton] at hoperands
    rw [hjoin]
    exact fun g hg => hoperands.operandsUnder hg
  · rw [hjoin]
    intro g hg
    exact hoperands g (mem_operandsUnder_junction.mp hg)

theorem weight_le_of_mem_joinOperands {fs : List Formula} {g : Formula}
    (hg : g ∈ joinOperands k fs) : g.weight ≤ (join k fs).weight := by
  rw [join_eq_collapse]
  match hshape : joinOperands k fs with
  | [] =>
      rw [hshape] at hg
      cases hg
  | [f] =>
      rw [hshape] at hg
      rw [List.mem_singleton.mp hg]
      exact Nat.le_refl _
  | f :: h :: hs =>
      rw [hshape] at hg
      exact Nat.le_of_lt (weight_lt_of_mem_children (f := junction k (f :: h :: hs)) hg)

theorem simplify_join_of_absorbing_mem (hs : s ≠ .pullNext) {fs : List Formula}
    (h : ∀ f ∈ fs, f.IsNormal s.rules) (hvalid : ∀ f ∈ fs, f.IsValid)
    (habsorbing : const k.absorbing ∈ fs) : (join k fs).simplify s = const k.absorbing := by
  have hmem : const k.absorbing ∈ joinOperands k fs :=
    mem_joinOperands.mpr ⟨_, habsorbing, List.mem_singleton_self _⟩
  rcases join_cases (k := k) hvalid with ⟨hnil, _⟩ | ⟨f, hsingle, hjoin⟩ | ⟨hjoin, hjvalid⟩
  · rw [hnil] at hmem
    cases hmem
  · rw [hsingle, List.mem_singleton] at hmem
    rw [hjoin, ← hmem]
    exact simplify_const s _
  · have hoperands : ∀ g ∈ joinOperands k fs, g.IsNormal s.rules :=
      forall_joinOperands (fun _ => IsNormal.children) h
    have hany : (joinOperands k fs).any (fun f => f.constant? == some k.absorbing) = true :=
      List.any_eq_true.mpr ⟨_, hmem, beq_self_eq_true _⟩
    have hfold : Rule.foldConstants (junction k (joinOperands k fs)) =
        some (const k.absorbing) := by
      simp only [Rule.foldConstants, hany, if_true]
    rw [hjoin, simplify_of_firstOutcome hjvalid hoperands
      (Rule.firstOutcome_of_foldConstants hs hfold), simplify_const]

theorem foldConstants_of_neutral_mem {fs : List Formula} (habsorbing : const k.absorbing ∉ fs)
    (hneutral : const k.neutral ∈ fs) : Rule.foldConstants (junction k fs) =
      some (join k (fs.filter (fun f => f.constant?.isNone))) := by
  have hdecides : fs.any (fun f => f.constant? == some k.absorbing) = false :=
    Bool.eq_false_iff.mpr fun h => habsorbing (any_constant?_iff.mp h)
  have hsome : fs.any (fun f => f.constant?.isSome) = true :=
    List.any_eq_true.mpr ⟨_, hneutral, rfl⟩
  simp only [Rule.foldConstants, hdecides, hsome, Bool.false_eq_true, if_false, if_true]

theorem mem_filter_constant?_iff {fs : List Formula} (habsorbing : const k.absorbing ∉ fs)
    {f : Formula} : f ∈ fs.filter (fun f => f.constant?.isNone) ↔
      f ∈ fs ∧ f ≠ const k.neutral := by
  rw [List.mem_filter, and_congr_right_iff]
  intro hf
  constructor
  · rintro hnone rfl
    cases hnone
  · intro hne
    cases f with
    | const value =>
        have hvalue : value ≠ k.neutral := fun heq => hne (congrArg const heq)
        rw [Bool.eq_not_of_ne hvalue] at hf
        exact absurd hf habsorbing
    | _ => rfl

section

variable (hs : s ≠ .pullNext) {fs : List Formula} (hvalid : ∀ f ∈ fs, f.IsValid)

include hs hvalid

theorem simplify_join_neutral_cons_of_isNormal (h : ∀ f ∈ fs, f.IsNormal s.rules) :
    (join k (const k.neutral :: fs)).simplify s = (join k fs).simplify s := by
  have hnormal : ∀ f ∈ const k.neutral :: fs, f.IsNormal s.rules :=
    List.forall_mem_cons.mpr ⟨isNormal_const s _, h⟩
  have hall : ∀ f ∈ const k.neutral :: fs, f.IsValid := List.forall_mem_cons.mpr ⟨rfl, hvalid⟩
  have hoperands : ∀ g, g ∈ joinOperands k (const k.neutral :: fs) ↔
      g = const k.neutral ∨ g ∈ joinOperands k fs := by
    intro g
    simp only [mem_joinOperands, List.exists_mem_cons_iff]
    exact or_congr_left List.mem_singleton
  have hmem : const k.neutral ∈ joinOperands k (const k.neutral :: fs) :=
    (hoperands _).mpr (Or.inl rfl)
  rw [← join_joinOperands hvalid]
  by_cases hneutral : const k.neutral ∈ joinOperands k fs
  · rw [← join_joinOperands hall]
    congr 1
    apply join_congr_mem
    intro f
    rw [hoperands]
    exact or_iff_right_of_imp fun heq => heq ▸ hneutral
  · rcases join_cases hall with ⟨hnil, _⟩ | ⟨f, hsingle, hjoin⟩ | ⟨hjoin, hjvalid⟩
    · rw [hnil] at hmem
      cases hmem
    · have hnil : joinOperands k fs = [] := by
        apply List.eq_nil_iff_forall_not_mem.mpr
        intro g hg
        have hgmem := (hoperands g).mpr (Or.inr hg)
        rw [hsingle, List.mem_singleton] at hmem hgmem
        rw [hgmem, ← hmem] at hg
        exact hneutral hg
      rw [hsingle, List.mem_singleton] at hmem
      rw [hjoin, ← hmem, hnil]
      rfl
    · by_cases habsorbing : const k.absorbing ∈ joinOperands k (const k.neutral :: fs)
      · have habsorbing' : const k.absorbing ∈ joinOperands k fs := by
          rcases (hoperands _).mp habsorbing with heq | habsorbing'
          · cases k <;> cases heq
          · exact habsorbing'
        rw [← join_joinOperands hall,
          simplify_join_of_absorbing_mem hs (fun _ => isNormal_joinOperands hnormal)
            (fun g hg => (isJunction_eq_false_of_mem_joinOperands hall hg).2) habsorbing,
          simplify_join_of_absorbing_mem hs (fun _ => isNormal_joinOperands h)
            (fun g hg => (isJunction_eq_false_of_mem_joinOperands hvalid hg).2) habsorbing']
      · rw [hjoin, simplify_of_firstOutcome hjvalid (fun _ => isNormal_joinOperands hnormal)
          (Rule.firstOutcome_of_foldConstants hs (foldConstants_of_neutral_mem habsorbing hmem))]
        congr 1
        apply join_congr_mem
        intro f
        rw [mem_filter_constant?_iff habsorbing, hoperands]
        constructor
        · rintro ⟨heq | hf, hne⟩
          · exact absurd heq hne
          · exact hf
        · intro hf
          exact ⟨Or.inr hf, fun heq => hneutral (heq ▸ hf)⟩

variable (hflat : ∀ f ∈ fs, f.isJunction k = true → f.IsNormal s.rules)

include hflat

theorem simplify_join_of_absorbing_mem_map {f : Formula} (hf : f ∈ fs)
    (habsorbing : f.simplify s = const k.absorbing) :
    (join k fs).simplify s = const k.absorbing := by
  have hall := isNormal_and_isValid_of_mem_map (s := s) hvalid
  rw [← simplify_join_map hvalid hflat]
  exact simplify_join_of_absorbing_mem hs (fun g hg => (hall g hg).1) (fun g hg => (hall g hg).2)
    (List.mem_map.mpr ⟨f, hf, habsorbing⟩)

theorem simplify_join_neutral_cons :
    (join k (const k.neutral :: fs)).simplify s = (join k fs).simplify s := by
  have hall := isNormal_and_isValid_of_mem_map (s := s) hvalid
  have hneutral : ∀ f ∈ const k.neutral :: fs,
      f.IsValid ∧ (f.isJunction k = true → f.IsNormal s.rules) :=
    List.forall_mem_cons.mpr ⟨⟨rfl, fun _ => isNormal_const s _⟩,
      fun f hf => ⟨hvalid f hf, hflat f hf⟩⟩
  rw [← simplify_join_map (fun f hf => (hneutral f hf).1) (fun f hf => (hneutral f hf).2),
    List.map_cons, simplify_const, simplify_join_neutral_cons_of_isNormal hs
      (fun g hg => (hall g hg).2) fun g hg => (hall g hg).1, simplify_join_map hvalid hflat]

end

theorem simplify_join_append_absorbing (hs : s ≠ .pullNext) {fs : List Formula}
    (hfs : ∀ f ∈ fs, f.IsNormal s.rules ∧ f.IsValid) :
    (join k (fs ++ [const k.absorbing])).simplify s = const k.absorbing := by
  have hall : ∀ f ∈ fs ++ [const k.absorbing], f.IsNormal s.rules ∧ f.IsValid :=
    List.forall_mem_append.mpr ⟨hfs, List.forall_mem_singleton.mpr ⟨isNormal_const s _, rfl⟩⟩
  exact simplify_join_of_absorbing_mem hs (fun f hf => (hall f hf).1) (fun f hf => (hall f hf).2)
    (List.mem_append_right _ (List.mem_singleton_self _))

/-!
## Gathering operands

The operator that takes the gathered bodies may have them simplified beforehand.
-/

section

variable (h : Rule.Distributes k body? wrap) {fs : List Formula}

include h

theorem isJunction_wrap (f : Formula) : (wrap f).isJunction k = false := by
  cases h <;> rfl

theorem simplify_wrap (s : Strategy) {body : Formula} (hbody : body.IsValid) :
    (wrap body).simplify s = (wrap (body.simplify s)).simplify s := by
  have hmap : (wrap body).mapChildren (simplify · s) = wrap (body.simplify s) :=
    h.isUnary.mapChildren _ body
  rw [← hmap, simplify_mapChildren (h.isValid_iff.mpr hbody)]

theorem weight_join_wrap_lt {n : Formula} (hcount : 2 ≤ (fs.filterMap body?).length)
    (hn : n.weight ≤ (join k (fs.filterMap body?)).weight) :
    (join k (fs.filter (fun f => (body? f).isNone) ++ [wrap n])).weight <
      (junction k fs).weight := by
  have hle := Nat.le_trans hn (isMeasure_weight.join_le (k := k) (fs.filterMap body?))
  cases h with
  | always =>
      have hlt := isMeasure_weight.join_wrap_add_le Rule.Distributes.always 2 3
        (fun f => by simp only [weight]) hcount hle
      omega
  | eventually =>
      have hlt := isMeasure_weight.join_wrap_add_le Rule.Distributes.eventually 2 3
        (fun f => by simp only [weight]) hcount hle
      omega
  | next =>
      have hlt := isMeasure_weight.join_wrap_add_le (Rule.Distributes.next k) 1 2
        (fun f => by simp only [weight, Nat.one_mul]) hcount hle
      omega

theorem weight_join_bodies_lt (hcount : 2 ≤ (fs.filterMap body?).length) :
    (join k (fs.filterMap body?)).weight < (junction k fs).weight := by
  have hmem : wrap (join k (fs.filterMap body?)) ∈ joinOperands k
      (fs.filter (fun f => (body? f).isNone) ++ [wrap (join k (fs.filterMap body?))]) := by
    refine mem_joinOperands.mpr ⟨_, List.mem_append_right _ (List.mem_singleton_self _), ?_⟩
    rw [operandsUnder_of_isJunction_eq_false (isJunction_wrap h _)]
    exact List.mem_singleton_self _
  calc (join k (fs.filterMap body?)).weight
      < (wrap (join k (fs.filterMap body?))).weight :=
        weight_lt_of_mem_children (h.mem_children _)
    _ ≤ _ := weight_le_of_mem_joinOperands hmem
    _ < (junction k fs).weight := weight_join_wrap_lt h hcount (Nat.le_refl _)

variable (hvalid : (junction k fs).IsValid) (hparts : ∀ f ∈ fs, f.IsNormal s.rules)

include hvalid hparts

theorem isNormal_body {body : Formula} (hbody : body ∈ fs.filterMap body?) :
    (wrap body).IsNormal s.rules ∧ body.IsNormal s.rules ∧ body.IsValid := by
  rcases List.mem_filterMap.mp hbody with ⟨f, hf, hfbody⟩
  rw [h.eq_some_iff.mp hfbody] at hf
  have hchild := h.mem_children body
  exact ⟨hparts _ hf, (hparts _ hf).children body hchild, (hvalid.children hf).children hchild⟩

theorem simplify_join_wrap :
    (join k (fs.filter (fun f => (body? f).isNone) ++
      [wrap (join k (fs.filterMap body?))])).simplify s =
    (join k (fs.filter (fun f => (body? f).isNone) ++
      [(wrap (join k (fs.filterMap body?))).simplify s])).simplify s := by
  have hbodies : (join k (fs.filterMap body?)).IsValid :=
    isValid_join fun body hbody => (isNormal_body h hvalid hparts hbody).2.2
  have hrest : ∀ f ∈ fs.filter (fun f => (body? f).isNone), f.IsNormal s.rules ∧ f.IsValid :=
    fun f hf => ⟨hparts f (List.mem_filter.mp hf).1, hvalid.children (List.mem_filter.mp hf).1⟩
  rw [← simplify_join_append_map hrest
    (List.forall_mem_singleton.mpr ⟨h.isValid_iff.mpr hbodies, isJunction_wrap h _⟩),
    List.map_singleton]

end

/-!
## Simplification keeps the strands

By induction over the weight, with one case for each law about junctions: dropping the
neutral constant drops no strand, a formula and its complement decide the junction, and
gathering operands keeps the strands if those of the bodies are kept.
-/

/-- The formula comes to the absorbing constant or keeps its strands. -/
structure KeepsStrands (s : Strategy) (k : Connective) (f : Formula) : Prop where
  decided : f.IsDecided s k → f.simplify s = const k.absorbing
  undecided : ¬ f.IsDecided s k → ∀ x, x ∈ strands s k (f.simplify s) ↔ x ∈ strands s k f

namespace KeepsStrands

theorem of_decided {f : Formula} (hdecided : f.IsDecided s k)
    (hsimplify : f.simplify s = const k.absorbing) : KeepsStrands s k f where
  decided _ := hsimplify
  undecided hnot := absurd hdecided hnot

theorem of_strands {f g : Formula} (hg : KeepsStrands s k g)
    (hsimplify : f.simplify s = g.simplify s)
    (hstrands : ∀ x, x ∈ strands s k f ↔ x ∈ strands s k g) : KeepsStrands s k f where
  decided hdecided := by
    rw [hsimplify]
    exact hg.decided (hdecided.mono fun x => (hstrands x).mp)
  undecided hnot x := by
    rw [hsimplify, hstrands]
    exact hg.undecided (fun hdecided => hnot (hdecided.mono fun x => (hstrands x).mpr)) x

theorem of_isNormal (hs : s = .propositional ∨ s = .modal) {f : Formula}
    (hnormal : f.IsNormal s.rules) (hf : f.IsValid) : KeepsStrands s k f where
  decided := by
    rintro ⟨x, hx, y, hy, hopposed⟩
    rw [simplify_of_isNormal hnormal]
    exact hnormal.eq_absorbing_of_opposed hs hf hx hy hopposed
  undecided _ x := by rw [simplify_of_isNormal hnormal]

end KeepsStrands

theorem mem_strands_of_mem {fs : List Formula} {f : Formula} (hf : f ∈ fs)
    (hself : strands s k f = [f]) : f ∈ strands s k (junction k fs) := by
  refine mem_strands_junction.mpr ⟨f, hf, ?_⟩
  rw [hself]
  exact List.mem_singleton_self f

theorem mem_strands_join_filter {fs : List Formula} (habsorbing : const k.absorbing ∉ fs)
    {x : Formula} : x ∈ strands s k (join k (fs.filter (fun f => f.constant?.isNone))) ↔
      x ∈ strands s k (junction k fs) := by
  rw [mem_strands_join, mem_strands_junction]
  constructor
  · rintro ⟨f, hf, hx⟩
    exact ⟨f, (List.mem_filter.mp hf).1, hx⟩
  · rintro ⟨f, hf, hx⟩
    refine ⟨f, (mem_filter_constant?_iff habsorbing).mpr ⟨hf, ?_⟩, hx⟩
    rintro rfl
    rw [strands_neutral] at hx
    cases hx

section

variable (h : s.Gathers k body? wrap) {fs : List Formula}

include h

theorem mem_strands_join_wrap {n : Formula}
    (hn : ∀ x, x ∈ strands s k n ↔ ∃ body ∈ fs.filterMap body?, x ∈ strands s k body)
    {x : Formula} :
    x ∈ strands s k (join k (fs.filter (fun f => (body? f).isNone) ++ [wrap n])) ↔
      x ∈ strands s k (junction k fs) := by
  rw [mem_strands_join, mem_strands_junction]
  simp only [List.mem_append, List.mem_singleton, or_and_right, exists_or, exists_eq_left]
  rw [strands_wrap h]
  constructor
  · rintro (⟨f, hf, hx⟩ | hx)
    · exact ⟨f, (List.mem_filter.mp hf).1, hx⟩
    · rcases List.mem_map.mp hx with ⟨y, hy, rfl⟩
      rcases (hn y).mp hy with ⟨body, hbody, hyb⟩
      rcases List.mem_filterMap.mp hbody with ⟨f, hf, hfbody⟩
      refine ⟨f, hf, ?_⟩
      rw [h.distributes.eq_some_iff.mp hfbody, strands_wrap h]
      exact List.mem_map_of_mem hyb
  · rintro ⟨f, hf, hx⟩
    cases hbody : body? f with
    | none => exact Or.inl ⟨f, List.mem_filter.mpr ⟨hf, by rw [hbody]; rfl⟩, hx⟩
    | some body =>
        rw [h.distributes.eq_some_iff.mp hbody, strands_wrap h] at hx
        rcases List.mem_map.mp hx with ⟨y, hy, rfl⟩
        exact Or.inr (List.mem_map_of_mem
          ((hn y).mpr ⟨body, List.mem_filterMap.mpr ⟨f, hf, hbody⟩, hy⟩))

theorem simplify_wrap_const (value : Bool) :
    (wrap (const value)).simplify s = const value := by
  rcases h with ⟨rfl, hdistributes⟩
  cases hdistributes <;> cases value <;> rfl

theorem isDecided_of_bodies (hdecided : (join k (fs.filterMap body?)).IsDecided s k) :
    (junction k fs).IsDecided s k := by
  have hwrapped : ∀ x ∈ strands s k (join k (fs.filterMap body?)),
      wrap x ∈ strands s k (junction k fs) := by
    intro x hx
    rcases mem_strands_join.mp hx with ⟨body, hbody, hx⟩
    rcases List.mem_filterMap.mp hbody with ⟨f, hf, hfbody⟩
    refine mem_strands_junction.mpr ⟨f, hf, ?_⟩
    rw [h.distributes.eq_some_iff.mp hfbody, strands_wrap h]
    exact List.mem_map_of_mem hx
  rcases hdecided with ⟨x, hx, y, hy, hopposed⟩
  exact ⟨wrap x, hwrapped x hx, wrap y, hwrapped y hy, Opposed.wrapped h hopposed⟩

variable (hvalid : (junction k fs).IsValid) (hparts : ∀ f ∈ fs, f.IsNormal s.rules)

include hvalid hparts

theorem keepsStrands_merge (hcount : 2 ≤ (fs.filterMap body?).length)
    (hsimplify : (junction k fs).simplify s = (join k (fs.filter (fun f => (body? f).isNone) ++
      [wrap (join k (fs.filterMap body?))])).simplify s)
    (ih : ∀ g : Formula, g.weight < (junction k fs).weight → g.IsValid →
      (∀ f ∈ g.operandsUnder k, f.IsNormal s.rules) → KeepsStrands s k g) :
    KeepsStrands s k (junction k fs) := by
  have hs := h.ne_pullNext
  have hbody : ∀ body ∈ fs.filterMap body?,
      (wrap body).IsNormal s.rules ∧ body.IsNormal s.rules ∧ body.IsValid :=
    fun _ => isNormal_body h.distributes hvalid hparts
  have hrest : ∀ f ∈ fs.filter (fun f => (body? f).isNone), f.IsNormal s.rules ∧ f.IsValid :=
    fun f hf => ⟨hparts f (List.mem_filter.mp hf).1, hvalid.children (List.mem_filter.mp hf).1⟩
  have hgvalid : (join k (fs.filterMap body?)).IsValid :=
    isValid_join fun body hmem => (hbody body hmem).2.2
  have hgparts : ∀ f ∈ (join k (fs.filterMap body?)).operandsUnder k, f.IsNormal s.rules :=
    isNormal_operandsUnder_join (fun body hmem => (hbody body hmem).2.1)
      fun body hmem => (hbody body hmem).2.2
  have hbodies := ih _ (weight_join_bodies_lt h.distributes hcount) hgvalid hgparts
  rw [simplify_join_wrap h.distributes hvalid hparts,
    simplify_wrap h.distributes s hgvalid] at hsimplify
  by_cases hdecided : (join k (fs.filterMap body?)).IsDecided s k
  · apply KeepsStrands.of_decided (isDecided_of_bodies h hdecided)
    rw [hsimplify, hbodies.decided hdecided, simplify_wrap_const h]
    exact simplify_join_append_absorbing hs hrest
  · have hstrands : ∀ x, x ∈ strands s k ((join k (fs.filterMap body?)).simplify s) ↔
        ∃ body ∈ fs.filterMap body?, x ∈ strands s k body := by
      intro x
      rw [hbodies.undecided hdecided, mem_strands_join]
    rcases List.exists_mem_of_length_pos (Nat.lt_of_lt_of_le Nat.zero_lt_two hcount)
      with ⟨body, hmem⟩
    have hwrapped : (wrap ((join k (fs.filterMap body?)).simplify s)).IsNormal s.rules :=
      IsNormal.isNormal_wrap h (hbody body hmem).1 (hbody body hmem).2.2
        (isNormal_simplify s hgvalid) (isValid_simplify s hgvalid)
        fun x hx => (hstrands x).mpr ⟨body, hmem, hx⟩
    have hall := List.forall_mem_append.mpr ⟨hrest, List.forall_mem_singleton.mpr
      ⟨hwrapped, h.distributes.isValid_iff.mpr (isValid_simplify s hgvalid)⟩⟩
    have hjoin := ih _ (weight_join_wrap_lt h.distributes hcount (weight_simplify_le s hgvalid))
      (isValid_join fun f hf => (hall f hf).2)
      (isNormal_operandsUnder_join (fun f hf => (hall f hf).1) fun f hf => (hall f hf).2)
    rw [simplify_of_isNormal hwrapped] at hsimplify
    exact hjoin.of_strands hsimplify fun x => (mem_strands_join_wrap h hstrands).symm

end

theorem eq_neutral_or_strands_eq {f : Formula} (hk : f.isJunction k = false)
    (hungathered : ∀ {body? : Formula → Option Formula} {wrap : Formula → Formula},
      s.Gathers k body? wrap → body? f = none) : f = const k.neutral ∨ strands s k f = [f] := by
  cases strandShape s k f with
  | neutral => exact Or.inl rfl
  | junction fs => simp [isJunction] at hk
  | gathered h body =>
      have hnone := hungathered h
      rw [h.distributes.eq_some_iff.mpr rfl] at hnone
      cases hnone
  | leaf hleaf => exact Or.inr hleaf.strands

theorem isDecided_of_absorbing_mem {fs : List Formula} (h : const k.absorbing ∈ fs) :
    (junction k fs).IsDecided s k := by
  have hstrand := mem_strands_of_mem h (strands_absorbing (s := s))
  exact ⟨_, hstrand, _, hstrand, Opposed.absorbing⟩

theorem eq_const_of_complement? (hs : s ≠ .pullNext) {f : Formula} {value : Bool}
    (hnormal : f.IsNormal s.rules) (hf : f.IsValid) (h : f.complement? = some (const value)) :
    f = const (!value) := by
  cases f with
  | const value' =>
      cases h
      rw [Bool.not_not]
  | not body =>
      cases h
      refine absurd (Rule.IsRedex.mono ?_ fun _ => s.propositional_subset_rules hs)
        (hnormal.not_isRedex hf)
      exact Rule.IsRedex.of_transform Rule.foldConstants (by simp [Rule.propositional]) rfl
  | _ => cases h

theorem isDecided_of_complement (hs : s = .propositional ∨ s = .modal) {f g h : Formula}
    (hcomplement : f.complement? = some g) (hnormal : f.IsNormal s.rules) (hf : f.IsValid)
    (hfk : f.isJunction k = false) (hgk : g.isJunction k = false)
    (hfstrands : ∀ x ∈ strands s k f, x ∈ strands s k h)
    (hgstrands : ∀ x ∈ strands s k g, x ∈ strands s k h) : h.IsDecided s k := by
  have habsorbing : (∀ x ∈ strands s k (const k.absorbing), x ∈ strands s k h) →
      h.IsDecided s k := by
    rw [strands_absorbing]
    intro hstrands
    have hmem := hstrands _ (List.mem_singleton_self _)
    exact ⟨_, hmem, _, hmem, Opposed.absorbing⟩
  rcases eq_neutral_or_strands_eq hfk
    (fun h => body?_eq_none_of_complement? h.distributes hcomplement) with rfl | hfself
  · cases hcomplement
    exact habsorbing hgstrands
  · rcases eq_neutral_or_strands_eq hgk
      (fun h => ungathered_complement h hnormal hf hcomplement) with rfl | hgself
    · rw [eq_const_of_complement? (Strategy.ne_pullNext hs) hnormal hf hcomplement] at hfstrands
      exact habsorbing hfstrands
    · rw [hfself] at hfstrands
      rw [hgself] at hgstrands
      exact ⟨f, hfstrands f (List.mem_singleton_self f), g, hgstrands g (List.mem_singleton_self g),
        Opposed.complement hcomplement⟩

theorem keepsStrands_junction (hs : s = .propositional ∨ s = .modal) {fs : List Formula}
    (hvalid : (junction k fs).IsValid) (hparts : ∀ f ∈ fs, f.IsNormal s.rules)
    (ih : ∀ g : Formula, g.weight < (junction k fs).weight → g.IsValid →
      (∀ f ∈ g.operandsUnder k, f.IsNormal s.rules) → KeepsStrands s k g) :
    KeepsStrands s k (junction k fs) := by
  cases hfirst : Rule.firstOutcome (junction k fs) s.rules with
  | none =>
      have hnormal := isNormal_simplify s hvalid
      rw [simplify_of_firstOutcome_eq_none hvalid hparts hfirst] at hnormal
      exact KeepsStrands.of_isNormal hs hnormal hvalid
  | some g =>
      have hsimplify := simplify_of_firstOutcome hvalid hparts hfirst
      rcases Rule.step_of_firstOutcome hs hfirst with hstep | ⟨rfl, hstep⟩
      · have hlt := hstep.weight_lt
        have houtcome := hstep.isValid hvalid
        cases hstep with
        | absorbing hmem =>
            apply KeepsStrands.of_decided (isDecided_of_absorbing_mem hmem)
            rw [hsimplify, simplify_const]
        | neutral habsorbing =>
            have hfilter : ∀ f ∈ fs.filter (fun f => f.constant?.isNone), f.IsNormal s.rules ∧
                f.IsValid :=
              fun f hf => ⟨hparts f (List.mem_filter.mp hf).1,
                hvalid.children (List.mem_filter.mp hf).1⟩
            have hkeeps := ih _ hlt houtcome (isNormal_operandsUnder_join
              (fun f hf => (hfilter f hf).1) fun f hf => (hfilter f hf).2)
            exact hkeeps.of_strands hsimplify fun x => (mem_strands_join_filter habsorbing).symm
        | complementary hf hg hcomplement =>
            have hstrands : ∀ {c}, c ∈ fs → ∀ x ∈ strands s k c, x ∈ strands s k (junction k fs) :=
              fun hc x hx => mem_strands_junction.mpr ⟨_, hc, hx⟩
            have hjunction := (isValid_junction.mp hvalid).2.2
            apply KeepsStrands.of_decided
              (isDecided_of_complement hs hcomplement (hparts _ hf) (hvalid.children hf)
                (hjunction _ hf).1 (hjunction _ hg).1 (hstrands hf) (hstrands hg))
            rw [hsimplify, simplify_const]
      · cases hstep with
        | merge hdistributes hcount =>
            exact keepsStrands_merge ⟨rfl, hdistributes⟩ hvalid hparts hcount hsimplify ih

/-- With normal operands, simplification keeps the strands or gives the absorbing constant. -/
theorem keepsStrands (hs : s = .propositional ∨ s = .modal) {f : Formula} (hf : f.IsValid)
    (hparts : ∀ g ∈ f.operandsUnder k, g.IsNormal s.rules) : KeepsStrands s k f := by
  induction hweight : f.weight using Nat.strongRecOn generalizing f with
  | ind n ih =>
      cases hk : f.isJunction k with
      | false =>
          rw [operandsUnder_of_isJunction_eq_false hk] at hparts
          exact KeepsStrands.of_isNormal hs (hparts f (List.mem_singleton_self f)) hf
      | true =>
          rw [← hweight] at ih
          rw [eq_junction_of_isJunction hk] at hf ih ⊢
          exact keepsStrands_junction hs hf hparts
            fun g hlt hg hgparts => ih g.weight hlt hg hgparts rfl

/-!
## Operands may be simplified beforehand

What junctions with normal operands come to depends on their strands alone.  So what is
taken apart by joining may be taken apart before it is simplified.
-/

theorem isValid_join_map {fs : List Formula} (hfs : ∀ f ∈ fs, f.IsValid) :
    (join k (fs.map (simplify · s))).IsValid :=
  isValid_join fun g hg => (isNormal_and_isValid_of_mem_map hfs g hg).2

theorem isNormal_operandsUnder_join_map {fs : List Formula} (hfs : ∀ f ∈ fs, f.IsValid) :
    ∀ g ∈ (join k (fs.map (simplify · s))).operandsUnder k, g.IsNormal s.rules :=
  isNormal_operandsUnder_join (fun g hg => (isNormal_and_isValid_of_mem_map hfs g hg).1)
    fun g hg => (isNormal_and_isValid_of_mem_map hfs g hg).2

theorem mem_strands_join_map {fs : List Formula} {x : Formula} :
    x ∈ strands s k (join k (fs.map (simplify · s))) ↔
      ∃ f ∈ fs, x ∈ strands s k (f.simplify s) := by
  rw [mem_strands_join]
  simp only [List.mem_map, exists_exists_and_eq_and]

theorem simplify_join_map_joinOperands {fs : List Formula} (hfs : ∀ f ∈ fs, f.IsValid) :
    (join k ((joinOperands k fs).map (simplify · s))).simplify s = (join k fs).simplify s := by
  have hoperands : ∀ g ∈ joinOperands k fs, g.isJunction k = false ∧ g.IsValid :=
    fun _ => isJunction_eq_false_of_mem_joinOperands hfs
  rw [simplify_join_map (fun g hg => (hoperands g hg).2), join_joinOperands hfs]
  intro g hg hk
  rw [(hoperands g hg).1] at hk
  cases hk

section

variable (hs : s = .propositional ∨ s = .modal)

include hs

theorem simplify_eq_of_strands {f g : Formula} (hf : f.IsValid) (hg : g.IsValid)
    (hfparts : ∀ c ∈ f.operandsUnder k, c.IsNormal s.rules)
    (hgparts : ∀ c ∈ g.operandsUnder k, c.IsNormal s.rules)
    (hstrands : ∀ x, x ∈ strands s k f ↔ x ∈ strands s k g) : f.simplify s = g.simplify s := by
  have hfkeeps := keepsStrands hs hf hfparts
  have hgkeeps := keepsStrands hs hg hgparts
  have hs' := Strategy.ne_pullNext hs
  by_cases hdecided : f.IsDecided s k
  · rw [hfkeeps.decided hdecided,
      hgkeeps.decided (hdecided.mono fun x => (hstrands x).mp)]
  · have hgundecided : ¬ g.IsDecided s k :=
      fun h => hdecided (h.mono fun x => (hstrands x).mpr)
    apply IsNormal.eq_of_strands hs' (isNormal_simplify s hf) (isNormal_simplify s hg)
      (isValid_simplify s hf) (isValid_simplify s hg) (k := k)
    intro x
    rw [hfkeeps.undecided hdecided, hgkeeps.undecided hgundecided, hstrands]

omit hs in
theorem simplify_join_operandsUnder {f : Formula} (hf : f.IsValid) :
    (join k ((f.operandsUnder k).map (simplify · s))).simplify s = f.simplify s := by
  cases hk : f.isJunction k with
  | true =>
      have hjunction := eq_junction_of_isJunction hk
      rw [hjunction] at hf
      rw [← mapChildren_junction _ hf, simplify_mapChildren hf, ← hjunction]
  | false =>
      rw [operandsUnder_of_isJunction_eq_false hk, List.map_singleton,
        join_singleton k (isValid_simplify s hf), simplify_of_isNormal (isNormal_simplify s hf)]

theorem keepsStrands_join_map {fs : List Formula} (hfs : ∀ f ∈ fs, f.IsValid) :
    KeepsStrands s k (join k (fs.map (simplify · s))) :=
  keepsStrands hs (isValid_join_map hfs) (isNormal_operandsUnder_join_map hfs)

/-- What is joined may be simplified beforehand, whatever becomes of it. -/
theorem simplify_join_simplify {fs : List Formula} (hfs : ∀ f ∈ fs, f.IsValid) :
    (join k (fs.map (simplify · s))).simplify s = (join k fs).simplify s := by
  have hoperands : ∀ g ∈ joinOperands k fs, g.IsValid :=
    fun g hg => (isJunction_eq_false_of_mem_joinOperands hfs hg).2
  have hkeeps : ∀ f ∈ fs, KeepsStrands s k (join k ((f.operandsUnder k).map (simplify · s))) :=
    fun f hf => keepsStrands_join_map hs fun g hg => ((hfs f hf).operandsUnder hg).2
  -- Every strand of an operand's operands is one of the whole.
  have hoperand : ∀ f ∈ fs, ∀ x ∈ strands s k (join k ((f.operandsUnder k).map (simplify · s))),
      x ∈ strands s k (join k ((joinOperands k fs).map (simplify · s))) := by
    intro f hf x hx
    rcases mem_strands_join_map.mp hx with ⟨g, hg, hxg⟩
    exact mem_strands_join_map.mpr ⟨g, mem_joinOperands.mpr ⟨f, hf, hg⟩, hxg⟩
  rw [← simplify_join_map_joinOperands hfs]
  by_cases hdecided : ∃ f ∈ fs, (join k ((f.operandsUnder k).map (simplify · s))).IsDecided s k
  · rcases hdecided with ⟨f, hf, hdecided⟩
    have habsorbing := (hkeeps f hf).decided hdecided
    rw [simplify_join_operandsUnder (hfs f hf)] at habsorbing
    have hall := isNormal_and_isValid_of_mem_map (s := s) hfs
    rw [simplify_join_of_absorbing_mem (Strategy.ne_pullNext hs) (fun x hx => (hall x hx).1)
        (fun x hx => (hall x hx).2) (List.mem_map.mpr ⟨f, hf, habsorbing⟩),
      (keepsStrands_join_map hs hoperands).decided (hdecided.mono (hoperand f hf))]
  · have hundecided : ∀ f ∈ fs, ∀ x, x ∈ strands s k (f.simplify s) ↔
        x ∈ strands s k (join k ((f.operandsUnder k).map (simplify · s))) := by
      intro f hf x
      rw [← simplify_join_operandsUnder (k := k) (hfs f hf)]
      exact (hkeeps f hf).undecided (fun h => hdecided ⟨f, hf, h⟩) x
    apply simplify_eq_of_strands hs (isValid_join_map hfs) (isValid_join_map hoperands)
      (isNormal_operandsUnder_join_map hfs) (isNormal_operandsUnder_join_map hoperands)
    intro x
    constructor
    · intro hx
      rcases mem_strands_join_map.mp hx with ⟨f, hf, hxf⟩
      exact hoperand f hf x ((hundecided f hf x).mp hxf)
    · intro hx
      rcases mem_strands_join_map.mp hx with ⟨g, hg, hxg⟩
      rcases mem_joinOperands.mp hg with ⟨f, hf, hgf⟩
      exact mem_strands_join_map.mpr
        ⟨f, hf, (hundecided f hf x).mpr (mem_strands_join_map.mpr ⟨g, hgf, hxg⟩)⟩

end

end Formula

end LinearTemporal

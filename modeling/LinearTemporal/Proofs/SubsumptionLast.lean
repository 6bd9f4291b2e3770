import LinearTemporal.Proofs.Duality

/-!
# Subsumption after the modal rules

The aggressive strategy tries the modal rules first, and subsumption only where none of them
has an outcome.  So on a formula whose parts it leaves as they are, it does no more than
subsumption does to the modal simplification of the formula.

The two come apart where the modal rules gather operands: one of them simplifies the gathered
formula with subsumption before it goes on.  What keeps them together is that an operator over
a simplified formula stays one that is not gathered a second time.
-/

namespace LinearTemporal

open Formula Simplification

theorem Strategy.aggressive_rules :
    Strategy.aggressive.rules = Strategy.modal.rules ++ Rule.subsumption :=
  rfl

theorem Formula.IsNormal.modal {f : Formula} (h : f.IsNormal Strategy.aggressive.rules) :
    f.IsNormal Strategy.modal.rules :=
  fun g hg rule hrule => h g hg rule (Strategy.aggressive_rules ▸ List.mem_append_left _ hrule)

/-- The operator other than `next` that distributes over a connective. -/
def Connective.own : Connective → Formula → Formula
  | and => always
  | or => eventually

def Connective.own? : Connective → Formula → Option Formula
  | and => always?
  | or => eventually?

namespace Rule

theorem distributes_own (k : Connective) : Distributes k k.own? k.own := by
  cases k
  · exact Distributes.always
  · exact Distributes.eventually

theorem Distributes.eq_own_or_eq_next {k : Connective} {body? : Formula → Option Formula}
    {wrap : Formula → Formula} (h : Distributes k body? wrap) :
    body? = k.own? ∧ wrap = k.own ∨ body? = next? ∧ wrap = .next := by
  cases h with
  | always | eventually => exact Or.inl ⟨rfl, rfl⟩
  | next => exact Or.inr ⟨rfl, rfl⟩

/-!
## The first outcome for a junction

It comes from constants or complements, or else from gathering.  Of clean operands two
can have the connective's own operator, and then these are gathered; otherwise those
with `next` are, if there are two of them.
-/

theorem firstOutcome_aggressive {f g : Formula}
    (h : firstOutcome f Strategy.modal.rules = some g) :
    firstOutcome f Strategy.aggressive.rules = some g := by
  unfold firstOutcome at h ⊢
  rw [Strategy.aggressive_rules, List.findSome?_append, h]
  rfl

/-- No rule for constants or complements has an outcome for a junction of these operands. -/
structure IsClean (fs : List Formula) : Prop where
  const : ∀ value, Formula.const value ∉ fs
  complement : ∀ f ∈ fs, ∀ g ∈ fs, f.complement? ≠ some g

theorem isClean_of_firstOutcome_eq_none {k : Connective} {fs : List Formula}
    (h : firstOutcome (.junction k fs) propositional = none) : IsClean fs := by
  have hnone : ∀ transform ∈ propositional.map Rule.transform,
      transform (.junction k fs) = none := by
    intro transform htransform
    rcases List.mem_map.mp htransform with ⟨rule, hrule, rfl⟩
    exact List.findSome?_eq_none_iff.mp h rule hrule
  constructor
  · intro value hvalue
    have hsome := isSome_foldConstants (k := k) hvalue
    rw [hnone foldConstants (by simp [propositional])] at hsome
    cases hsome
  · intro f hf g hg hcomplement
    have hsome := isSome_complementaryOperands (k := k) hf hg hcomplement
    rw [hnone complementaryOperands (by simp [propositional])] at hsome
    cases hsome

theorem mergeTemporal_junction (k : Connective) (fs : List Formula) :
    mergeTemporal (.junction k fs) =
      (mergeUnder k k.own? k.own fs).or (mergeUnder k next? .next fs) := by
  cases k <;> rfl

theorem mergeUnder_cases (k : Connective) (body? : Formula → Option Formula)
    (wrap : Formula → Formula) (fs : List Formula) :
    ¬ 2 ≤ (fs.filterMap body?).length ∧ mergeUnder k body? wrap fs = none ∨
      2 ≤ (fs.filterMap body?).length ∧ mergeUnder k body? wrap fs =
        some (join k (fs.filter (fun f => (body? f).isNone) ++
          [wrap (join k (fs.filterMap body?))])) := by
  by_cases hcount : 2 ≤ (fs.filterMap body?).length
  · exact Or.inr ⟨hcount, if_neg (Nat.not_lt.mpr hcount)⟩
  · exact Or.inl ⟨hcount, if_pos (Nat.lt_of_not_le hcount)⟩

theorem firstOutcome_modal_junction (k : Connective) (fs : List Formula) :
    firstOutcome (.junction k fs) modal = mergeTemporal (.junction k fs) := by
  cases hmerge : mergeTemporal (.junction k fs) <;>
    simp only [firstOutcome, modal, List.findSome?_cons, List.findSome?_nil, pushNegation,
      temporalConstants, temporalIdempotence, hmerge]

theorem firstOutcome_junction {k : Connective} {fs : List Formula} {g : Formula}
    (h : firstOutcome (.junction k fs) Strategy.modal.rules = some g) :
    PropositionalStep (.junction k fs) g ∨
      IsClean fs ∧ mergeTemporal (.junction k fs) = some g := by
  have hrules : Strategy.modal.rules = propositional ++ modal := rfl
  rw [hrules, firstOutcome, List.findSome?_append, Option.or_eq_some_iff] at h
  rcases h with hpropositional | ⟨hnone, hmodal⟩
  · rcases mem_and_transform_of_firstOutcome hpropositional with ⟨rule, hrule, htransform⟩
    exact Or.inl (PropositionalStep.of_mem hrule htransform)
  · rw [← firstOutcome_modal_junction]
    exact Or.inr ⟨isClean_of_firstOutcome_eq_none hnone, hmodal⟩

theorem firstOutcome_of_isClean {k : Connective} {fs : List Formula} (hclean : IsClean fs) :
    firstOutcome (.junction k fs) Strategy.modal.rules = mergeTemporal (.junction k fs) := by
  cases hfirst : firstOutcome (.junction k fs) Strategy.modal.rules with
  | none =>
      have hrules : Strategy.modal.rules = propositional ++ modal := rfl
      rw [hrules, firstOutcome, List.findSome?_append, Option.or_eq_none_iff] at hfirst
      rw [← firstOutcome_modal_junction]
      exact hfirst.2.symm
  | some g =>
      rcases firstOutcome_junction hfirst with hstep | ⟨_, hsome⟩
      · cases hstep with
        | absorbing hmem => exact absurd hmem (hclean.const _)
        | neutral _ hmem => exact absurd hmem (hclean.const _)
        | complementary hf hg hcomplement =>
            exact absurd hcomplement (hclean.complement _ hf _ hg)
      · exact hsome.symm

theorem firstOutcome_of_two_le_nexts {k : Connective} {fs : List Formula} (hclean : IsClean fs)
    (hown : mergeUnder k k.own? k.own fs = none) (hcount : 2 ≤ (fs.filterMap next?).length) :
    firstOutcome (.junction k fs) Strategy.modal.rules =
      some (join k (fs.filter (fun f => (next? f).isNone) ++
        [.next (join k (fs.filterMap next?))])) := by
  rw [firstOutcome_of_isClean hclean, mergeTemporal_junction, hown, Option.none_or]
  exact if_neg (Nat.not_lt.mpr hcount)

theorem firstOutcome_of_two_le_owns {k : Connective} {fs : List Formula} (hclean : IsClean fs)
    (hcount : 2 ≤ (fs.filterMap k.own?).length) :
    firstOutcome (.junction k fs) Strategy.modal.rules =
      some (join k (fs.filter (fun f => (k.own? f).isNone) ++
        [k.own (join k (fs.filterMap k.own?))])) := by
  have hown : mergeUnder k k.own? k.own fs =
      some (join k (fs.filter (fun f => (k.own? f).isNone) ++
        [k.own (join k (fs.filterMap k.own?))])) :=
    if_neg (Nat.not_lt.mpr hcount)
  rw [firstOutcome_of_isClean hclean, mergeTemporal_junction, hown, Option.some_or]

end Rule

namespace Formula

variable {k : Connective} {body? : Formula → Option Formula} {wrap : Formula → Formula}

/-!
## Joining normal operands

The parts of what is joined are normal if the operands and their parts are.
-/

theorem isNormal_children_join {s : Strategy} {fs : List Formula}
    (h : ∀ f ∈ fs, f.IsNormal s.rules) (hvalid : ∀ f ∈ fs, f.IsValid) :
    ∀ g ∈ (join k fs).children, g.IsNormal s.rules := by
  have hoperands := isNormal_operandsUnder_join (k := k) h hvalid
  cases hk : (join k fs).isJunction k with
  | true =>
      rw [eq_junction_of_isJunction hk]
      exact hoperands
  | false =>
      rw [operandsUnder_of_isJunction_eq_false hk] at hoperands
      exact (hoperands _ (List.mem_singleton_self _)).children

/-!
## Operands that keep out of the way

What the connective's own operator over a formula comes to stays of this kind, whichever
rules apply below it.  The operands of a steady formula are no leaves, and none has
`next` at its root, so they need not be looked at when others are gathered.
-/

/-- The connective's own operator is at the root, or time does not matter.  What that operator
over a formula comes to stays of this kind, whichever rules apply below it. -/
def IsSteady (k : Connective) (f : Formula) : Prop :=
  (∃ body, f = k.own body) ∨ f.isSuffixInvariant = true

theorem isSteady_const (k : Connective) (value : Bool) : (const value).IsSteady k :=
  Or.inr rfl

theorem isSteady_simplify_own_of_isNormal {d : Formula}
    (hd : d.IsNormal Strategy.aggressive.rules) (hvalid : d.IsValid) :
    ((k.own d).simplify .aggressive).IsSteady k := by
  induction hweight : d.weight using Nat.strongRecOn generalizing d with
  | ind n ih =>
      have hown : (k.own d).IsValid := (Rule.distributes_own k).isValid_iff.mpr hvalid
      have hparts : ∀ g ∈ (k.own d).children, g.IsNormal Strategy.aggressive.rules := by
        rw [(Rule.distributes_own k).children_wrap, List.forall_mem_singleton]
        exact hd
      cases hfirst : Rule.firstOutcome (k.own d) Strategy.aggressive.rules with
      | none =>
          rw [simplify_of_firstOutcome_eq_none hown hparts hfirst]
          exact Or.inl ⟨d, rfl⟩
      | some g =>
          rw [simplify_of_firstOutcome hown hparts hfirst]
          rcases Rule.mem_and_transform_of_firstOutcome hfirst with ⟨rule, hrule, htransform⟩
          rcases Strategy.mem_rules hrule with ⟨hs, _⟩ | ⟨_, hrule | hrule | hrule⟩
          · cases hs
          · have hstep := Rule.PropositionalStep.of_mem hrule htransform
            cases k <;> cases hstep
          · have hstep := Rule.ModalStep.of_mem hrule htransform
            cases k with
            | and =>
                cases hstep with
                | alwaysConst value =>
                    rw [simplify_const]
                    exact isSteady_const _ value
                | alwaysInvariant hinvariant =>
                    rw [simplify_of_isNormal hd]
                    exact Or.inr hinvariant
                | alwaysAlways body =>
                    rw [simplify_of_isNormal hd]
                    exact Or.inl ⟨body, rfl⟩
            | or =>
                cases hstep with
                | eventuallyConst value =>
                    rw [simplify_const]
                    exact isSteady_const _ value
                | eventuallyInvariant hinvariant =>
                    rw [simplify_of_isNormal hd]
                    exact Or.inr hinvariant
                | eventuallyEventually body =>
                    rw [simplify_of_isNormal hd]
                    exact Or.inl ⟨body, rfl⟩
          · have hright : ∀ right, right ∈ d.children →
                ((k.own right).simplify .aggressive).IsSteady k := fun right hmem =>
              ih right.weight (hweight ▸ weight_lt_of_mem_children hmem) (hd.children right hmem)
                (hvalid.children hmem) rfl
            have hstep := Rule.SubsumptionStep.of_mem hrule htransform
            cases k with
            | and =>
                cases hstep with
                | alwaysRelease left right => exact hright right (by simp [children])
            | or =>
                cases hstep with
                | eventuallyUntl left right => exact hright right (by simp [children])

theorem isSteady_simplify_own {d : Formula} (hd : d.IsValid) :
    ((k.own d).simplify .aggressive).IsSteady k := by
  rw [simplify_wrap (Rule.distributes_own k) .aggressive hd]
  exact isSteady_simplify_own_of_isNormal (isNormal_simplify .aggressive hd)
    (isValid_simplify .aggressive hd)

theorem children_eq_nil_of_complement? {f g : Formula}
    (hnormal : f.IsNormal Strategy.modal.rules) (hf : f.IsValid) (h : f.complement? = some g) :
    f.children = [] ∧ g.children = [] := by
  cases f with
  | const | literal | atom =>
      cases h
      exact ⟨rfl, rfl⟩
  | not body => exact absurd rfl ((hnormal.isNegationNormal (Or.inl rfl) hf).ne_not body)
  | _ => cases h

theorem isClean_of_forall {fs gs : List Formula} (hclean : Rule.IsClean fs)
    (hnormal : ∀ g ∈ gs, g.IsNormal Strategy.modal.rules ∧ g.IsValid)
    (h : ∀ g ∈ gs, g ∈ fs ∨ g.children ≠ []) : Rule.IsClean gs := by
  constructor
  · intro value hmem
    rcases h _ hmem with hfs | hchildren
    · exact hclean.const value hfs
    · exact hchildren rfl
  · intro f hf g hg hcomplement
    rcases children_eq_nil_of_complement? (hnormal f hf).1 (hnormal f hf).2 hcomplement
      with ⟨hfnil, hgnil⟩
    rcases h f hf with hf | hchildren
    · rcases h g hg with hg | hchildren
      · exact hclean.complement f hf g hg hcomplement
      · exact hchildren hgnil
    · exact hchildren hfnil

theorem IsSteady.of_mem_operandsUnder {f g : Formula} (hsteady : f.IsSteady k)
    (hnormal : f.IsNormal Strategy.modal.rules) (hf : f.IsValid)
    (hconst : ∀ value, f ≠ const value) (hg : g ∈ f.operandsUnder k) :
    g.children ≠ [] ∧ next? g = none := by
  rcases hsteady with ⟨body, rfl⟩ | hinvariant
  · rw [operandsUnder_of_isJunction_eq_false (isJunction_wrap (Rule.distributes_own k) body)] at hg
    rw [List.mem_singleton.mp hg]
    cases k <;> simp [Connective.own, children, next?]
  · have hginvariant := isSuffixInvariant_of_mem_operandsUnder hinvariant hg
    have hgnormal := hnormal.operandsUnder hg
    have hgvalid := (hf.operandsUnder hg).2
    have hgconst : ∀ value, g ≠ const value := by
      rintro value rfl
      cases hk : f.isJunction k with
      | true =>
          rw [eq_junction_of_isJunction hk] at hnormal hf
          exact hnormal.const_not_mem Strategy.noConfusion hf value hg
      | false =>
          rw [operandsUnder_of_isJunction_eq_false hk] at hg
          exact hconst value (List.mem_singleton.mp hg).symm
    cases g with
    | const value => exact absurd rfl (hgconst value)
    | literal | atom => cases hginvariant
    | next body =>
        have hbody := hgnormal.not_isSuffixInvariant ⟨rfl, Rule.Distributes.next k⟩
          (hgvalid.children List.mem_cons_self)
        rw [show body.isSuffixInvariant = true from hginvariant] at hbody
        cases hbody
    | junction l gs =>
        refine ⟨?_, rfl⟩
        rintro (hnil : gs = [])
        rw [hnil] at hgvalid
        exact absurd (isValid_junction.mp hgvalid).1 (by simp)
    | _ => simp [children, next?]

/-!
## Gathering the operands under `next`

Operands that have nothing to gather may be put in place before or afterwards, and what
is gathered may be simplified.
-/

def gatherNexts (k : Connective) (fs : List Formula) : List Formula :=
  fs.filter (fun f => (next? f).isNone) ++ [next (join k (fs.filterMap next?))]

theorem mem_gatherNexts {fs : List Formula} {f : Formula} :
    f ∈ gatherNexts k fs ↔ (f ∈ fs ∧ next? f = none) ∨ f = next (join k (fs.filterMap next?)) := by
  rw [gatherNexts, List.mem_append, List.mem_filter, Option.isNone_iff_eq_none, List.mem_singleton]

theorem mem_filterMap_body (h : Rule.Distributes k body? wrap) {fs : List Formula}
    {body : Formula} : body ∈ fs.filterMap body? ↔ wrap body ∈ fs := by
  rw [List.mem_filterMap]
  constructor
  · rintro ⟨f, hf, hbody⟩
    rw [← h.eq_some_iff.mp hbody]
    exact hf
  · intro hbody
    exact ⟨_, hbody, h.eq_some_iff.mpr rfl⟩

/-- Operands of which only those under `next` are left to gather, two of them at least. -/
structure LeavesNexts (s : Strategy) (k : Connective) (fs : List Formula) : Prop where
  normal : ∀ f ∈ fs, f.IsNormal s.rules ∧ f.IsValid
  plain : ∀ f ∈ fs, f.isJunction k = false
  ungathered : ∀ f ∈ fs, k.own? f = none
  clean : Rule.IsClean fs
  ascending : Ascending.IsAscending fs
  two : 2 ≤ (fs.filterMap next?).length

/-- At most one operand, and it keeps out of the way. -/
structure StandsBy (s : Strategy) (k : Connective) (fs : List Formula) : Prop where
  normal : ∀ f ∈ fs, f.IsNormal s.rules ∧ f.IsValid
  steady : ∀ f ∈ fs, f.IsSteady k
  ne_const : ∀ f ∈ fs, ∀ value, f ≠ const value
  unique : ∀ f ∈ fs, ∀ g ∈ fs, f = g

theorem StandsBy.nil (s : Strategy) (k : Connective) : StandsBy s k [] where
  normal := List.forall_mem_nil _
  steady := List.forall_mem_nil _
  ne_const := List.forall_mem_nil _
  unique := List.forall_mem_nil _

theorem StandsBy.singleton {s : Strategy} {f : Formula} (hnormal : f.IsNormal s.rules)
    (hf : f.IsValid) (hsteady : f.IsSteady k) (hconst : ∀ value, f ≠ const value) :
    StandsBy s k [f] where
  normal := List.forall_mem_singleton.mpr ⟨hnormal, hf⟩
  steady := List.forall_mem_singleton.mpr hsteady
  ne_const := List.forall_mem_singleton.mpr hconst
  unique := List.forall_mem_singleton.mpr (List.forall_mem_singleton.mpr rfl)

theorem LeavesNexts.modal {fs : List Formula} (h : LeavesNexts .aggressive k fs) :
    LeavesNexts .modal k fs :=
  { h with normal := fun f hf => ⟨(h.normal f hf).1.modal, (h.normal f hf).2⟩ }

theorem LeavesNexts.isValid_next_join {s : Strategy} {fs : List Formula}
    (h : LeavesNexts s k fs) : (next (join k (fs.filterMap next?))).IsValid := by
  refine (Rule.Distributes.next k).isValid_iff.mpr (isValid_join fun body hbody => ?_)
  have hmem := (mem_filterMap_body (Rule.Distributes.next k)).mp hbody
  exact (h.normal _ hmem).2.children List.mem_cons_self

theorem LeavesNexts.own_not_mem {s : Strategy} {fs : List Formula} (h : LeavesNexts s k fs)
    (body : Formula) : k.own body ∉ fs := by
  intro hmem
  have hnone := h.ungathered _ hmem
  rw [(Rule.distributes_own k).eq_some_iff.mpr rfl] at hnone
  cases hnone

theorem mem_joinOperands_append {fs gs : List Formula} (hgs : ∀ g ∈ gs, g.isJunction k = false)
    {g : Formula} : g ∈ joinOperands k (fs ++ gs) ↔
      (∃ f ∈ fs, g ∈ f.operandsUnder k) ∨ g ∈ gs := by
  rw [← mem_joinOperands_of_forall hgs]
  simp only [mem_joinOperands, List.mem_append, or_and_right, exists_or]

theorem join_gatherNexts_joinOperands {fs gs : List Formula} (hfs : ∀ f ∈ fs, f.IsValid)
    (hungathered : ∀ f ∈ fs, ∀ g ∈ f.operandsUnder k, next? g = none)
    (hgs : ∀ g ∈ gs, g.isJunction k = false) :
    join k (gatherNexts k (joinOperands k (fs ++ gs))) = join k (fs ++ gatherNexts k gs) := by
  have hbodies : join k ((joinOperands k (fs ++ gs)).filterMap next?) =
      join k (gs.filterMap next?) := by
    apply join_congr_mem
    intro body
    rw [mem_filterMap_body (Rule.Distributes.next k), mem_filterMap_body (Rule.Distributes.next k),
      mem_joinOperands_append hgs]
    refine or_iff_right_of_imp ?_
    rintro ⟨f, hf, hbody⟩
    cases hungathered f hf _ hbody
  apply join_congr
  intro g
  simp only [mem_gatherNexts, List.mem_append, mem_joinOperands_append hgs, hbodies]
  constructor
  · rintro ⟨f, ⟨⟨e, he, hf⟩ | hf, hnext⟩ | hf, hg⟩
    · rw [operandsUnder_of_isJunction_eq_false ((hfs e he).operandsUnder hf).1] at hg
      rw [List.mem_singleton.mp hg]
      exact ⟨e, Or.inl he, hf⟩
    · exact ⟨f, Or.inr (Or.inl ⟨hf, hnext⟩), hg⟩
    · exact ⟨f, Or.inr (Or.inr hf), hg⟩
  · rintro ⟨f, hf | ⟨hf, hnext⟩ | hf, hg⟩
    · refine ⟨g, Or.inl ⟨Or.inl ⟨f, hf, hg⟩, hungathered f hf g hg⟩, ?_⟩
      rw [operandsUnder_of_isJunction_eq_false ((hfs f hf).operandsUnder hg).1]
      exact List.mem_singleton_self g
    · exact ⟨f, Or.inl ⟨Or.inr hf, hnext⟩, hg⟩
    · exact ⟨f, Or.inr hf, hg⟩

section

variable {s : Strategy} (hs : s = .modal ∨ s = .aggressive)

include hs

theorem IsNormal.of_modal_or_aggressive {f : Formula} (h : f.IsNormal s.rules) :
    f.IsNormal Strategy.modal.rules := by
  rcases hs with rfl | rfl
  · exact h
  · exact h.modal

theorem firstOutcome_of_modal {f g : Formula}
    (h : Rule.firstOutcome f Strategy.modal.rules = some g) :
    Rule.firstOutcome f s.rules = some g := by
  rcases hs with rfl | rfl
  · exact h
  · exact Rule.firstOutcome_aggressive h

variable {fs gs : List Formula} (hfs : StandsBy s k fs) (hgs : LeavesNexts s k gs)

include hfs

theorem StandsBy.operand {f g : Formula} (hf : f ∈ fs) (hg : g ∈ f.operandsUnder k) :
    g.children ≠ [] ∧ next? g = none :=
  (hfs.steady f hf).of_mem_operandsUnder ((hfs.normal f hf).1.of_modal_or_aggressive hs)
    (hfs.normal f hf).2 (hfs.ne_const f hf) hg

include hgs

omit hs in
theorem isNormal_and_isValid_of_mem_joinOperands {g : Formula}
    (hg : g ∈ joinOperands k (fs ++ gs)) : g.IsNormal s.rules ∧ g.IsValid := by
  have hall : ∀ f ∈ fs ++ gs, f.IsNormal s.rules ∧ f.IsValid :=
    List.forall_mem_append.mpr ⟨hfs.normal, hgs.normal⟩
  exact ⟨isNormal_joinOperands (fun f hf => (hall f hf).1) hg,
    (isJunction_eq_false_of_mem_joinOperands (fun f hf => (hall f hf).2) hg).2⟩

theorem isClean_joinOperands : Rule.IsClean (joinOperands k (fs ++ gs)) := by
  apply isClean_of_forall hgs.clean
  · intro g hg
    have hnormal := isNormal_and_isValid_of_mem_joinOperands hfs hgs hg
    exact ⟨hnormal.1.of_modal_or_aggressive hs, hnormal.2⟩
  · intro g hg
    rcases (mem_joinOperands_append hgs.plain).mp hg with ⟨f, hf, hgf⟩ | hg
    · exact Or.inr (hfs.operand hs hf hgf).1
    · exact Or.inl hg

theorem mergeUnder_own_eq_none :
    Rule.mergeUnder k k.own? k.own (joinOperands k (fs ++ gs)) = none := by
  refine if_pos (Nat.lt_of_not_le fun hcount => ?_)
  rcases exists_bodies_ne (Rule.distributes_own k) (isAscending_joinOperands k _) hcount
    with ⟨b, b', hb, hb', hne⟩
  have hsteady : ∀ b, k.own b ∈ joinOperands k (fs ++ gs) →
      ∃ f ∈ fs, k.own b ∈ f.operandsUnder k := fun b hb =>
    ((mem_joinOperands_append hgs.plain).mp hb).resolve_right (hgs.own_not_mem b)
  rcases hsteady b hb with ⟨f, hf, hbf⟩
  rcases hsteady b' hb' with ⟨f', hf', hbf'⟩
  rw [← hfs.unique f hf f' hf'] at hbf'
  exact hne (IsNormal.body_unique ⟨rfl, Rule.distributes_own k⟩
    ((hfs.normal f hf).1.of_modal_or_aggressive hs) (hfs.normal f hf).2 hbf hbf')

omit hs in
theorem join_append_of_leavesNexts :
    join k (fs ++ gs) = junction k (joinOperands k (fs ++ gs)) ∧
      (junction k (joinOperands k (fs ++ gs))).IsValid ∧
        2 ≤ ((joinOperands k (fs ++ gs)).filterMap next?).length := by
  have hnext := Rule.Distributes.next k
  rcases exists_bodies_ne hnext hgs.ascending hgs.two with ⟨b, b', hb, hb', hne⟩
  have hmem : ∀ b, next b ∈ gs → next b ∈ joinOperands k (fs ++ gs) :=
    fun b hb => (mem_joinOperands_append hgs.plain).mpr (Or.inr hb)
  have hall : ∀ f ∈ fs ++ gs, f.IsValid := List.forall_mem_append.mpr
    ⟨fun f hf => (hfs.normal f hf).2, fun g hg => (hgs.normal g hg).2⟩
  have hnexts : next b ≠ next b' := fun heq => hne (hnext.wrap_inj hnext heq).2
  rcases join_of_mem_of_ne hall (hmem b hb) (hmem b' hb') hnexts with ⟨hjoin, hvalid⟩
  exact ⟨hjoin, hvalid, two_le_length_of_mem ((mem_filterMap_body hnext).mpr (hmem b hb))
    ((mem_filterMap_body hnext).mpr (hmem b' hb')) hne⟩

theorem simplify_join_gatherNexts :
    (join k (fs ++ gs)).simplify s = (join k (fs ++ gatherNexts k gs)).simplify s := by
  rcases join_append_of_leavesNexts hfs hgs with ⟨hjoin, hvalid, hcount⟩
  have hfirst := firstOutcome_of_modal hs (Rule.firstOutcome_of_two_le_nexts
    (isClean_joinOperands hs hfs hgs) (mergeUnder_own_eq_none hs hfs hgs) hcount)
  rw [← join_gatherNexts_joinOperands (fun f hf => (hfs.normal f hf).2)
      (fun f hf g hg => (hfs.operand hs hf hg).2) hgs.plain, hjoin,
    simplify_of_firstOutcome hvalid
      (fun g hg => (isNormal_and_isValid_of_mem_joinOperands hfs hgs hg).1) hfirst]
  rfl

theorem simplify_join_append_gathered :
    (join k (fs ++ gs)).simplify s =
      (join k (fs ++ (gs.filter (fun g => (next? g).isNone) ++
        [(next (join k (gs.filterMap next?))).simplify s]))).simplify s := by
  have hall : ∀ f ∈ fs ++ gs.filter (fun g => (next? g).isNone), f.IsNormal s.rules ∧ f.IsValid :=
    List.forall_mem_append.mpr ⟨hfs.normal, fun g hg => hgs.normal g (List.mem_filter.mp hg).1⟩
  rw [simplify_join_gatherNexts hs hfs hgs, gatherNexts, ← List.append_assoc, ← List.append_assoc,
    ← simplify_join_append_map hall
      (List.forall_mem_singleton.mpr ⟨hgs.isValid_next_join, rfl⟩), List.map_singleton]

end

/-!
## The modal rules first

Gathered bodies come to the absorbing constant, or the operator over them stays.
Putting the operands with one operator together leaves a normal junction, if no other
operator is there to gather; otherwise those under `next` are gathered afterwards.  In
all these cases the modal rules may finish before subsumption begins.
-/

/-- The aggressive strategy could as well start from the modal simplification. -/
def ModalFirst (f : Formula) : Prop :=
  f.simplify .aggressive = (f.simplify .modal).simplify .aggressive

theorem ModalFirst.of_isNormal {f : Formula} (h : f.IsNormal Strategy.modal.rules) :
    f.ModalFirst := by
  rw [ModalFirst, simplify_of_isNormal h]

theorem ModalFirst.congr {f g : Formula} (hg : g.ModalFirst)
    (haggressive : f.simplify .aggressive = g.simplify .aggressive)
    (hmodal : f.simplify .modal = g.simplify .modal) : f.ModalFirst := by
  rw [ModalFirst, haggressive, hmodal]
  exact hg

theorem ModalFirst.of_const {f : Formula} {value : Bool}
    (haggressive : f.simplify .aggressive = const value)
    (hmodal : f.simplify .modal = const value) : f.ModalFirst := by
  rw [ModalFirst, haggressive, hmodal, simplify_const]

theorem simplify_aggressive_wrap_const (h : Rule.Distributes k body? wrap) (value : Bool) :
    (wrap (const value)).simplify .aggressive = const value := by
  cases h <;> cases value <;> rfl

theorem simplify_modal_wrap_join (h : Rule.Distributes k body? wrap) {bodies : List Formula}
    (hbodies : ∀ body ∈ bodies, (wrap body).IsNormal Strategy.modal.rules ∧ body.IsValid)
    (hne : ∃ body, body ∈ bodies) :
    (join k bodies).simplify .modal = const k.absorbing ∨
      (wrap ((join k bodies).simplify .modal)).IsNormal Strategy.modal.rules := by
  have hvalid : (join k bodies).IsValid := isValid_join fun body hbody => (hbodies body hbody).2
  have hnormal : ∀ body ∈ bodies, body.IsNormal Strategy.modal.rules :=
    fun body hbody => (hbodies body hbody).1.children body (h.mem_children body)
  have hkeeps : KeepsStrands .modal k (join k bodies) :=
    keepsStrands (Or.inr rfl) hvalid
      (isNormal_operandsUnder_join hnormal fun body hbody => (hbodies body hbody).2)
  by_cases hdecided : (join k bodies).IsDecided .modal k
  · exact Or.inl (hkeeps.decided hdecided)
  · rcases hne with ⟨body, hbody⟩
    refine Or.inr (IsNormal.isNormal_wrap ⟨rfl, h⟩ (hbodies body hbody).1 (hbodies body hbody).2
      (isNormal_simplify .modal hvalid) (isValid_simplify .modal hvalid) ?_)
    intro x hx
    exact (hkeeps.undecided hdecided x).mpr (mem_strands_join.mpr ⟨body, hbody, hx⟩)

theorem modalFirst_wrap_join (h : Rule.Distributes k body? wrap) {bodies : List Formula}
    (hbodies : ∀ body ∈ bodies, (wrap body).IsNormal Strategy.modal.rules ∧ body.IsValid)
    (hne : ∃ body, body ∈ bodies) (hjoin : (join k bodies).ModalFirst) :
    (wrap (join k bodies)).ModalFirst ∧
      ((wrap (join k bodies)).simplify .modal = const k.absorbing ∨
        ∃ e, (wrap (join k bodies)).simplify .modal = wrap e) := by
  have hvalid : (join k bodies).IsValid := isValid_join fun body hbody => (hbodies body hbody).2
  have haggressive : (wrap (join k bodies)).simplify .aggressive =
      (wrap ((join k bodies).simplify .modal)).simplify .aggressive := by
    rw [simplify_wrap h .aggressive hvalid, hjoin,
      ← simplify_wrap h .aggressive (isValid_simplify .modal hvalid)]
  have hmodal := simplify_wrap h .modal hvalid
  rcases simplify_modal_wrap_join h hbodies hne with habsorbing | hnormal
  · rw [habsorbing] at haggressive hmodal
    rw [simplify_aggressive_wrap_const h] at haggressive
    rw [simplify_wrap_const ⟨rfl, h⟩] at hmodal
    exact ⟨ModalFirst.of_const haggressive hmodal, Or.inl hmodal⟩
  · exact ⟨(ModalFirst.of_isNormal hnormal).congr haggressive hmodal,
      Or.inr ⟨_, hmodal.trans (simplify_of_isNormal hnormal)⟩⟩

theorem isNormal_join_of_isClean {fs : List Formula}
    (hfs : ∀ f ∈ fs, f.IsNormal Strategy.modal.rules ∧ f.IsValid)
    (hflat : ∀ f ∈ fs, f.isJunction k = false) (hclean : Rule.IsClean fs)
    (hunique : ∀ {body? : Formula → Option Formula} {wrap : Formula → Formula},
      Rule.Distributes k body? wrap → ∀ b b', wrap b ∈ fs → wrap b' ∈ fs → b = b') :
    (join k fs).IsNormal Strategy.modal.rules := by
  have hmem : ∀ g, g ∈ joinOperands k fs ↔ g ∈ fs := fun g => mem_joinOperands_of_forall hflat
  have hnormal : ∀ g ∈ joinOperands k fs, g.IsNormal Strategy.modal.rules :=
    fun g hg => (hfs g ((hmem g).mp hg)).1
  rcases join_cases fun f hf => (hfs f hf).2 with ⟨_, hjoin⟩ | ⟨f, hsingle, hjoin⟩ | ⟨hjoin, _⟩
  · rw [hjoin]
    exact isNormal_const .modal _
  · rw [hjoin]
    exact hnormal f (hsingle ▸ List.mem_singleton_self f)
  · rw [hjoin]
    apply isNormal_of_no_step
    · exact hnormal
    · intro g hstep
      cases hstep with
      | absorbing hconst => exact hclean.const _ ((hmem _).mp hconst)
      | neutral _ hconst => exact hclean.const _ ((hmem _).mp hconst)
      | complementary hx hy hcomplement =>
          exact hclean.complement _ ((hmem _).mp hx) _ ((hmem _).mp hy) hcomplement
    · intro g hstep
      cases hstep with
      | merge hdistributes hcount =>
          rcases exists_bodies_ne hdistributes (isAscending_joinOperands k fs) hcount
            with ⟨b, b', hb, hb', hne⟩
          exact hne (hunique hdistributes b b' ((hmem _).mp hb) ((hmem _).mp hb'))

theorem body_eq_of_not_two_le (h : Rule.Distributes k body? wrap) {fs : List Formula}
    (hcount : ¬ 2 ≤ (fs.filterMap body?).length) {b b' : Formula} (hb : wrap b ∈ fs)
    (hb' : wrap b' ∈ fs) : b = b' :=
  Classical.byContradiction fun hne => hcount (two_le_length_of_mem
    ((mem_filterMap_body h).mpr hb) ((mem_filterMap_body h).mpr hb') hne)

section

variable {fs : List Formula} (hvalid : (junction k fs).IsValid)
  (hparts : ∀ f ∈ fs, f.IsNormal Strategy.aggressive.rules)

include hvalid hparts

theorem modalFirst_of_merge (h : Rule.Distributes k body? wrap)
    (hcount : 2 ≤ (fs.filterMap body?).length)
    (hfirst : Rule.firstOutcome (junction k fs) Strategy.modal.rules =
      some (join k (fs.filter (fun f => (body? f).isNone) ++ [wrap (join k (fs.filterMap body?))])))
    (hbodies : (join k (fs.filterMap body?)).ModalFirst)
    (hgathered : ∀ e, (wrap e).IsNormal Strategy.modal.rules → (wrap e).IsValid →
      (join k (fs.filter (fun f => (body? f).isNone) ++ [wrap e])).ModalFirst) :
    (junction k fs).ModalFirst := by
  have hmodalparts : ∀ f ∈ fs, f.IsNormal Strategy.modal.rules := fun f hf => (hparts f hf).modal
  have hrest : ∀ {s : Strategy}, (∀ f ∈ fs, f.IsNormal s.rules) →
      ∀ f ∈ fs.filter (fun f => (body? f).isNone), f.IsNormal s.rules ∧ f.IsValid :=
    fun hnormal f hf => ⟨hnormal f (List.mem_filter.mp hf).1,
      hvalid.children (List.mem_filter.mp hf).1⟩
  have hbody : ∀ body ∈ fs.filterMap body?,
      (wrap body).IsNormal Strategy.modal.rules ∧ body.IsValid := fun body hmem =>
    ⟨(isNormal_body h hvalid hmodalparts hmem).1, (isNormal_body h hvalid hmodalparts hmem).2.2⟩
  have hjvalid : (wrap (join k (fs.filterMap body?))).IsValid :=
    h.isValid_iff.mpr (isValid_join fun body hmem => (hbody body hmem).2)
  rcases modalFirst_wrap_join h hbody (List.exists_mem_of_length_pos
    (Nat.lt_of_lt_of_le Nat.zero_lt_two hcount)) hbodies with ⟨hwrap, hshape⟩
  have haggressive : (junction k fs).simplify .aggressive =
      (join k (fs.filter (fun f => (body? f).isNone) ++
        [((wrap (join k (fs.filterMap body?))).simplify .modal).simplify .aggressive])).simplify
          .aggressive := by
    rw [simplify_of_firstOutcome hvalid hparts (Rule.firstOutcome_aggressive hfirst),
      simplify_join_wrap h hvalid hparts, hwrap]
  have hmodal : (junction k fs).simplify .modal =
      (join k (fs.filter (fun f => (body? f).isNone) ++
        [(wrap (join k (fs.filterMap body?))).simplify .modal])).simplify .modal := by
    rw [simplify_of_firstOutcome hvalid hmodalparts hfirst, simplify_join_wrap h hvalid hmodalparts]
  have hmnormal := isNormal_simplify .modal hjvalid
  have hmvalid := isValid_simplify .modal hjvalid
  rcases hshape with hm | ⟨e, hm⟩
  · rw [hm, simplify_const] at haggressive
    rw [hm] at hmodal
    refine @ModalFirst.of_const _ k.absorbing ?_ ?_
    · rw [haggressive]
      exact simplify_join_append_absorbing Strategy.noConfusion (hrest hparts)
    · rw [hmodal]
      exact simplify_join_append_absorbing Strategy.noConfusion (hrest hmodalparts)
  · rw [hm] at haggressive hmodal hmnormal hmvalid
    refine (hgathered e hmnormal hmvalid).congr ?_ hmodal
    rw [haggressive, ← List.map_singleton (f := (simplify · .aggressive)),
      simplify_join_append_map (hrest hparts)
        (List.forall_mem_singleton.mpr ⟨hmvalid, isJunction_wrap h e⟩)]

end

theorem isNormal_join_filter_append (h : Rule.Distributes k body? wrap) {fs : List Formula}
    (hfs : ∀ f ∈ fs, f.IsNormal Strategy.modal.rules ∧ f.IsValid)
    (hflat : ∀ f ∈ fs, f.isJunction k = false) (hclean : Rule.IsClean fs)
    (hothers : ∀ {body?' : Formula → Option Formula} {wrap' : Formula → Formula},
      Rule.Distributes k body?' wrap' → wrap' ≠ wrap →
        ∀ b b', wrap' b ∈ fs → wrap' b' ∈ fs → b = b')
    {e : Formula} (he : (wrap e).IsNormal Strategy.modal.rules) (hevalid : (wrap e).IsValid) :
    (join k (fs.filter (fun f => (body? f).isNone) ++ [wrap e])).IsNormal Strategy.modal.rules := by
  have hrest : ∀ {P : Formula → Prop}, (∀ f ∈ fs, P f) → P (wrap e) →
      ∀ f ∈ fs.filter (fun f => (body? f).isNone) ++ [wrap e], P f := fun hP he =>
    List.forall_mem_append.mpr
      ⟨fun f hf => hP f (List.mem_filter.mp hf).1, List.forall_mem_singleton.mpr he⟩
  have hall := hrest hfs ⟨he, hevalid⟩
  apply isNormal_join_of_isClean hall (hrest hflat (isJunction_wrap h e))
  · apply isClean_of_forall hclean hall
    apply hrest (fun f hf => Or.inl hf)
    rw [h.children_wrap]
    exact Or.inr (List.cons_ne_nil _ _)
  · intro body?' wrap' h' b b' hb hb'
    rw [List.mem_append, List.mem_filter, List.mem_singleton, Option.isNone_iff_eq_none] at hb hb'
    by_cases hwrap : wrap' = wrap
    · have hgathered : ∀ c, (wrap' c ∈ fs ∧ body? (wrap' c) = none) ∨ wrap' c = wrap e → c = e := by
        rintro c (⟨_, hnone⟩ | heq)
        · rw [hwrap, h.eq_some_iff.mpr rfl] at hnone
          cases hnone
        · exact (h'.wrap_inj h heq).2
      rw [hgathered b hb, hgathered b' hb']
    · have hmem : ∀ c, (wrap' c ∈ fs ∧ body? (wrap' c) = none) ∨ wrap' c = wrap e →
          wrap' c ∈ fs := by
        rintro c (⟨hmem, _⟩ | heq)
        · exact hmem
        · exact absurd (h'.wrap_inj h heq).1 hwrap
      exact hothers h' hwrap b b' (hmem b hb) (hmem b' hb')

section

variable {fs : List Formula} (hfs : LeavesNexts .aggressive k fs)

include hfs

theorem isNormal_and_isValid_of_mem_filter :
    ∀ f ∈ fs.filter (fun f => (next? f).isNone),
      f.IsNormal Strategy.aggressive.rules ∧ f.IsValid :=
  fun f hf => hfs.normal f (List.mem_filter.mp hf).1

theorem simplify_join_cons_gatherNexts {o : Formula}
    (ho : o.IsNormal Strategy.aggressive.rules) (hvalid : o.IsValid) (hsteady : o.IsSteady k) :
    (join k (o :: fs)).simplify .aggressive =
      (join k (o :: (fs.filter (fun f => (next? f).isNone) ++
        [(next (join k (fs.filterMap next?))).simplify .aggressive]))).simplify .aggressive := by
  have hgathered : ∀ g ∈ fs.filter (fun f => (next? f).isNone) ++
      [(next (join k (fs.filterMap next?))).simplify .aggressive],
      g.IsNormal Strategy.aggressive.rules ∧ g.IsValid :=
    List.forall_mem_append.mpr ⟨isNormal_and_isValid_of_mem_filter hfs,
      List.forall_mem_singleton.mpr ⟨isNormal_simplify .aggressive hfs.isValid_next_join,
        isValid_simplify .aggressive hfs.isValid_next_join⟩⟩
  by_cases hconst : ∃ value, o = const value
  · rcases hconst with ⟨value, rfl⟩
    by_cases hvalue : value = k.neutral
    · have hnil := simplify_join_append_gathered (Or.inr rfl) (StandsBy.nil _ k) hfs
      rw [List.nil_append, List.nil_append] at hnil
      rw [hvalue, simplify_join_neutral_cons Strategy.noConfusion
          (fun f hf => (hfs.normal f hf).2) (fun f hf _ => (hfs.normal f hf).1), hnil,
        simplify_join_neutral_cons Strategy.noConfusion (fun f hf => (hgathered f hf).2)
          fun f hf _ => (hgathered f hf).1]
    · have habsorbing : ∀ {gs : List Formula},
          (∀ g ∈ gs, g.IsNormal Strategy.aggressive.rules ∧ g.IsValid) →
            (join k (const value :: gs)).simplify .aggressive = const k.absorbing := by
        intro gs hgs
        rw [Bool.eq_not_of_ne hvalue] at ho ⊢
        have hall := List.forall_mem_cons.mpr ⟨⟨ho, hvalid⟩, hgs⟩
        exact simplify_join_of_absorbing_mem Strategy.noConfusion (fun f hf => (hall f hf).1)
          (fun f hf => (hall f hf).2) List.mem_cons_self
      rw [habsorbing hfs.normal, habsorbing hgathered]
  · exact simplify_join_append_gathered (Or.inr rfl)
      (StandsBy.singleton ho hvalid hsteady fun value heq => hconst ⟨value, heq⟩) hfs

theorem simplify_aggressive_join_cons_own {e n : Formula} (he : (k.own e).IsValid)
    (hn : n.IsValid ∧ n.isJunction k = false)
    (hsame : (next (join k (fs.filterMap next?))).simplify .aggressive = n.simplify .aggressive) :
    (join k (k.own e :: fs)).simplify .aggressive =
      (join k (k.own e :: (fs.filter (fun f => (next? f).isNone) ++ [n]))).simplify
        .aggressive := by
  have hown := Rule.distributes_own k
  have heplain : (k.own e).IsValid ∧ (k.own e).isJunction k = false :=
    ⟨he, isJunction_wrap hown e⟩
  have hfront : ∀ f, join k (f :: fs) = join k (fs ++ [f]) := fun f => join_append_comm [f] fs
  have hinner : ∀ f n, join k (f :: (fs.filter (fun f => (next? f).isNone) ++ [n])) =
      join k (fs.filter (fun f => (next? f).isNone) ++ [f, n]) :=
    fun f n => join_congr_mem fun g => by simp [or_left_comm]
  calc (join k (k.own e :: fs)).simplify .aggressive
      = (join k (fs ++ [k.own e].map (simplify · .aggressive))).simplify .aggressive := by
        rw [hfront, simplify_join_append_map hfs.normal (List.forall_mem_singleton.mpr heplain)]
    _ = (join k ((k.own e).simplify .aggressive :: (fs.filter (fun f => (next? f).isNone) ++
          [(next (join k (fs.filterMap next?))).simplify .aggressive]))).simplify .aggressive := by
        rw [List.map_singleton, ← hfront]
        exact simplify_join_cons_gatherNexts hfs (isNormal_simplify .aggressive he)
          (isValid_simplify .aggressive he) (isSteady_simplify_own (hown.isValid_iff.mp he))
    _ = (join k (fs.filter (fun f => (next? f).isNone) ++
          [k.own e, n].map (simplify · .aggressive))).simplify .aggressive := by
        rw [hinner, hsame, List.map_cons, List.map_singleton]
    _ = (join k (k.own e :: (fs.filter (fun f => (next? f).isNone) ++ [n]))).simplify
          .aggressive := by
        rw [simplify_join_append_map (isNormal_and_isValid_of_mem_filter hfs)
          (List.forall_mem_cons.mpr ⟨heplain, List.forall_mem_singleton.mpr hn⟩), hinner]

theorem isNormal_join_cons_own {e e' : Formula} (he : (k.own e).IsNormal Strategy.modal.rules)
    (hvalid : (k.own e).IsValid) (he' : (next e').IsNormal Strategy.modal.rules)
    (hvalid' : (next e').IsValid) :
    (join k (k.own e :: (fs.filter (fun f => (next? f).isNone) ++ [next e']))).IsNormal
      Strategy.modal.rules := by
  have hown := Rule.distributes_own k
  have hall : ∀ f ∈ k.own e :: fs, f.IsNormal Strategy.modal.rules ∧ f.IsValid :=
    List.forall_mem_cons.mpr ⟨⟨he, hvalid⟩, hfs.modal.normal⟩
  have hkept : (k.own e :: fs).filter (fun f => (next? f).isNone) =
      k.own e :: fs.filter (fun f => (next? f).isNone) :=
    List.filter_cons_of_pos (by cases k <;> rfl)
  have hclean : Rule.IsClean (k.own e :: fs) := by
    refine isClean_of_forall hfs.clean hall
      (List.forall_mem_cons.mpr ⟨Or.inr ?_, fun f => Or.inl⟩)
    rw [hown.children_wrap]
    exact List.cons_ne_nil _ _
  have hone : ∀ c, k.own c ∈ k.own e :: fs → c = e := by
    intro c hc
    rcases List.mem_cons.mp hc with heq | hc
    · exact (hown.wrap_inj hown heq).2
    · exact absurd hc (hfs.own_not_mem c)
  rw [← List.cons_append, ← hkept]
  refine isNormal_join_filter_append (Rule.Distributes.next k) hall
    (List.forall_mem_cons.mpr ⟨isJunction_wrap hown e, hfs.plain⟩) hclean ?_ he' hvalid'
  intro body? wrap h hne b b' hb hb'
  rcases h.eq_own_or_eq_next with ⟨_, rfl⟩ | ⟨_, rfl⟩
  · rw [hone b hb, hone b' hb']
  · exact absurd rfl hne

theorem modalFirst_join_cons_own_absorbing {e : Formula} (hvalid : (k.own e).IsValid) :
    (join k (k.own e :: (fs.filter (fun f => (next? f).isNone) ++
      [const k.absorbing]))).ModalFirst := by
  have hall : ∀ f ∈ k.own e :: (fs.filter (fun f => (next? f).isNone) ++ [const k.absorbing]),
      f.IsValid ∧ f.isJunction k = false :=
    List.forall_mem_cons.mpr ⟨⟨hvalid, isJunction_wrap (Rule.distributes_own k) e⟩,
      List.forall_mem_append.mpr ⟨fun f hf =>
        ⟨(isNormal_and_isValid_of_mem_filter hfs f hf).2, hfs.plain f (List.mem_filter.mp hf).1⟩,
        List.forall_mem_singleton.mpr ⟨rfl, rfl⟩⟩⟩
  have hdecides : ∀ {s : Strategy}, s ≠ .pullNext →
      (join k (k.own e :: (fs.filter (fun f => (next? f).isNone) ++
        [const k.absorbing]))).simplify s = const k.absorbing := by
    intro s hs
    refine simplify_join_of_absorbing_mem_map hs (fun f hf => (hall f hf).1) ?_
      (List.mem_cons_of_mem _ (List.mem_append_right _ (List.mem_singleton_self _)))
      (simplify_const s _)
    intro f hf hk
    rw [(hall f hf).2] at hk
    cases hk
  exact ModalFirst.of_const (hdecides Strategy.noConfusion) (hdecides Strategy.noConfusion)

theorem modalFirst_join_cons_own (hnexts : (join k (fs.filterMap next?)).ModalFirst) {e : Formula}
    (he : (k.own e).IsNormal Strategy.modal.rules) (hvalid : (k.own e).IsValid) :
    (join k (k.own e :: fs)).ModalFirst := by
  have hnext := Rule.Distributes.next k
  have hbodies : ∀ body ∈ fs.filterMap next?,
      (next body).IsNormal Strategy.modal.rules ∧ body.IsValid := by
    intro body hbody
    have hmem := hfs.modal.normal _ ((mem_filterMap_body hnext).mp hbody)
    exact ⟨hmem.1, hmem.2.children List.mem_cons_self⟩
  rcases modalFirst_wrap_join hnext hbodies (List.exists_mem_of_length_pos
    (Nat.lt_of_lt_of_le Nat.zero_lt_two hfs.two)) hnexts with ⟨hwrap, hshape⟩
  have hn := isValid_simplify .modal hfs.isValid_next_join
  have hnnormal := isNormal_simplify .modal hfs.isValid_next_join
  have hnplain : ((next (join k (fs.filterMap next?))).simplify .modal).isJunction k = false := by
    rcases hshape with heq | ⟨e', heq⟩ <;> rw [heq] <;> rfl
  have hconst : ∀ value, k.own e ≠ const value := by
    intro value
    cases k <;> simp [Connective.own]
  refine ModalFirst.congr ?_ (simplify_aggressive_join_cons_own hfs hvalid ⟨hn, hnplain⟩ hwrap)
    (simplify_join_append_gathered (Or.inl rfl)
      (StandsBy.singleton he hvalid (Or.inl ⟨e, rfl⟩) hconst) hfs.modal)
  rcases hshape with habsorbing | ⟨e', heq⟩
  · rw [habsorbing]
    exact modalFirst_join_cons_own_absorbing hfs hvalid
  · rw [heq] at hn hnnormal ⊢
    exact ModalFirst.of_isNormal (isNormal_join_cons_own hfs he hvalid hnnormal hn)

end

section

variable {fs : List Formula} (hvalid : (junction k fs).IsValid)
  (hparts : ∀ f ∈ fs, f.IsNormal Strategy.aggressive.rules)
  (ih : ∀ g : Formula, g.weight < (junction k fs).weight → g.IsValid →
    (∀ c ∈ g.children, c.IsNormal Strategy.aggressive.rules) → g.ModalFirst)

include hvalid hparts ih

theorem modalFirst_join_bodies (h : Rule.Distributes k body? wrap)
    (hcount : 2 ≤ (fs.filterMap body?).length) : (join k (fs.filterMap body?)).ModalFirst := by
  have hbody := fun body hmem => @isNormal_body .aggressive _ _ _ h _ hvalid hparts body hmem
  exact ih _ (weight_join_bodies_lt h hcount) (isValid_join fun body hmem => (hbody body hmem).2.2)
    (isNormal_children_join (fun body hmem => (hbody body hmem).2.1)
      fun body hmem => (hbody body hmem).2.2)

omit hparts ih hvalid in
theorem filterMap_next_filter_own (k : Connective) (fs : List Formula) :
    (fs.filter (fun f => (k.own? f).isNone)).filterMap next? = fs.filterMap next? := by
  rw [List.filterMap_filter]
  apply List.filterMap_congr
  intro f _
  cases k <;> cases f <;> rfl

theorem modalFirst_of_own_merge (hclean : Rule.IsClean fs)
    (hcount : 2 ≤ (fs.filterMap k.own?).length)
    (hfirst : Rule.firstOutcome (junction k fs) Strategy.modal.rules =
      some (join k (fs.filter (fun f => (k.own? f).isNone) ++
        [k.own (join k (fs.filterMap k.own?))]))) : (junction k fs).ModalFirst := by
  have hown := Rule.distributes_own k
  have hnext := Rule.Distributes.next k
  have hfs : ∀ f ∈ fs, f.IsNormal Strategy.aggressive.rules ∧ f.IsValid :=
    fun f hf => ⟨hparts f hf, hvalid.children hf⟩
  have hmodalfs : ∀ f ∈ fs, f.IsNormal Strategy.modal.rules ∧ f.IsValid :=
    fun f hf => ⟨(hparts f hf).modal, hvalid.children hf⟩
  have hflat : ∀ f ∈ fs, f.isJunction k = false :=
    fun f hf => ((isValid_junction.mp hvalid).2.2 f hf).1
  refine modalFirst_of_merge hvalid hparts hown hcount hfirst
    (modalFirst_join_bodies hvalid hparts ih hown hcount) ?_
  intro e he hevalid
  by_cases hnexts : 2 ≤ (fs.filterMap next?).length
  · have hbodies := modalFirst_join_bodies hvalid hparts ih hnext hnexts
    rw [← filterMap_next_filter_own k] at hnexts hbodies
    have hrest : ∀ f ∈ fs.filter (fun f => (k.own? f).isNone), f ∈ fs :=
      fun f hf => (List.mem_filter.mp hf).1
    have hleaves : LeavesNexts .aggressive k (fs.filter (fun f => (k.own? f).isNone)) :=
      { normal := fun f hf => hfs f (hrest f hf)
        plain := fun f hf => hflat f (hrest f hf)
        ungathered := fun f hf => Option.isNone_iff_eq_none.mp (List.mem_filter.mp hf).2
        clean := isClean_of_forall hclean (fun f hf => hmodalfs f (hrest f hf))
          fun f hf => Or.inl (hrest f hf)
        ascending := (isValid_junction.mp hvalid).2.1.filter _
        two := hnexts }
    have hfront : join k (fs.filter (fun f => (k.own? f).isNone) ++ [k.own e]) =
        join k (k.own e :: fs.filter (fun f => (k.own? f).isNone)) :=
      join_append_comm _ [k.own e]
    rw [hfront]
    exact modalFirst_join_cons_own hleaves hbodies he hevalid
  · refine ModalFirst.of_isNormal
      (isNormal_join_filter_append hown hmodalfs hflat hclean ?_ he hevalid)
    intro body? wrap h hne b b' hb hb'
    rcases h.eq_own_or_eq_next with ⟨_, rfl⟩ | ⟨rfl, rfl⟩
    · exact absurd rfl hne
    · exact body_eq_of_not_two_le h hnexts hb hb'

theorem modalFirst_of_next_merge (hclean : Rule.IsClean fs)
    (hown : ¬ 2 ≤ (fs.filterMap k.own?).length) (hcount : 2 ≤ (fs.filterMap next?).length)
    (hfirst : Rule.firstOutcome (junction k fs) Strategy.modal.rules =
      some (join k (fs.filter (fun f => (next? f).isNone) ++
        [next (join k (fs.filterMap next?))]))) : (junction k fs).ModalFirst := by
  have hnext := Rule.Distributes.next k
  refine modalFirst_of_merge hvalid hparts hnext hcount hfirst
    (modalFirst_join_bodies hvalid hparts ih hnext hcount) ?_
  intro e he hevalid
  refine ModalFirst.of_isNormal (isNormal_join_filter_append hnext
    (fun f hf => ⟨(hparts f hf).modal, hvalid.children hf⟩)
    (fun f hf => ((isValid_junction.mp hvalid).2.2 f hf).1) hclean ?_ he hevalid)
  intro body? wrap h hne b b' hb hb'
  rcases h.eq_own_or_eq_next with ⟨rfl, rfl⟩ | ⟨_, rfl⟩
  · exact body_eq_of_not_two_le h hown hb hb'
  · exact absurd rfl hne

theorem modalFirst_junction : (junction k fs).ModalFirst := by
  have hmodalparts : ∀ f ∈ fs, f.IsNormal Strategy.modal.rules := fun f hf => (hparts f hf).modal
  cases hfirst : Rule.firstOutcome (junction k fs) Strategy.modal.rules with
  | none =>
      have hnormal := isNormal_simplify .modal hvalid
      rw [simplify_of_firstOutcome_eq_none hvalid hmodalparts hfirst] at hnormal
      exact ModalFirst.of_isNormal hnormal
  | some g =>
      have haggressive := simplify_of_firstOutcome hvalid hparts
        (Rule.firstOutcome_aggressive hfirst)
      have hmodal := simplify_of_firstOutcome hvalid hmodalparts hfirst
      rcases Rule.firstOutcome_junction hfirst with hstep | ⟨hclean, hmerge⟩
      · have hlt := hstep.weight_lt
        have hgvalid := hstep.isValid hvalid
        refine ModalFirst.congr (ih g hlt hgvalid ?_) haggressive hmodal
        cases hstep with
        | absorbing | complementary => exact fun c hc => nomatch hc
        | neutral =>
            exact isNormal_children_join (fun f hf => hparts f (List.mem_filter.mp hf).1)
              fun f hf => hvalid.children (List.mem_filter.mp hf).1
      · rw [Rule.mergeTemporal_junction] at hmerge
        rcases Rule.mergeUnder_cases k k.own? k.own fs with ⟨hown, hnone⟩ | ⟨hcount, hsome⟩
        · rw [hnone, Option.none_or] at hmerge
          rcases Rule.mergeUnder_cases k next? next fs with ⟨_, hnone⟩ | ⟨hcount, hsome⟩
          · rw [hnone] at hmerge
            cases hmerge
          · rw [← hmerge, hsome] at hfirst
            exact modalFirst_of_next_merge hvalid hparts ih hclean hown hcount hfirst
        · rw [hsome, Option.some_or] at hmerge
          rw [← hmerge] at hfirst
          exact modalFirst_of_own_merge hvalid hparts ih hclean hcount hfirst

end

/-!
## All formulas with simplified parts

A modal law of a temporal operator gives a part, or puts another operator over one.
-/

theorem mem_children_or_of_modalStep {f g : Formula} (hstep : Rule.ModalStep f g)
    (hnot : ∀ body, f ≠ not body) (hjunction : ∀ k fs, f ≠ junction k fs) :
    g ∈ f.children ∨ ∃ c ∈ f.children, g.children = [c] := by
  cases hstep with
  | pushJunction | pushNext | pushAlways | pushEventually | pushUntl | pushRelease =>
      exact absurd rfl (hnot _)
  | merge => exact absurd rfl (hjunction _ _)
  | untlTrue right | releaseFalse right => exact Or.inr ⟨right, by simp [children], rfl⟩
  | _ => exact Or.inl (by simp [children])

/-- On a formula whose parts it leaves as they are, the aggressive strategy does no more than it
does to the modal simplification. -/
theorem modalFirst_of_children {f : Formula} (hf : f.IsValid)
    (hparts : ∀ c ∈ f.children, c.IsNormal Strategy.aggressive.rules) : f.ModalFirst := by
  induction hweight : f.weight using Nat.strongRecOn generalizing f with
  | ind n ih =>
      have hmodalparts : ∀ c ∈ f.children, c.IsNormal Strategy.modal.rules :=
        fun c hc => (hparts c hc).modal
      have ih' : ∀ g : Formula, g.weight < f.weight → g.IsValid →
          (∀ c ∈ g.children, c.IsNormal Strategy.aggressive.rules) → g.ModalFirst :=
        fun g hlt hg hgparts => ih g.weight (hweight ▸ hlt) hg hgparts rfl
      cases hfirst : Rule.firstOutcome f Strategy.modal.rules with
      | none =>
          have hnormal := isNormal_simplify .modal hf
          rw [simplify_of_firstOutcome_eq_none hf hmodalparts hfirst] at hnormal
          exact ModalFirst.of_isNormal hnormal
      | some g =>
          have haggressive := simplify_of_firstOutcome hf hparts
            (Rule.firstOutcome_aggressive hfirst)
          have hmodal := simplify_of_firstOutcome hf hmodalparts hfirst
          have hother : (∀ body, f ≠ not body) → (∀ k fs, f ≠ junction k fs) → f.ModalFirst := by
            intro hnot hjunction
            rcases Rule.step_of_firstOutcome (s := .modal) (Or.inr rfl) hfirst
              with hstep | ⟨_, hstep⟩
            · cases hstep with
              | negatedConst | doubleNegation | negatedLiteral | negatedAtom =>
                  exact absurd rfl (hnot _)
              | absorbing | neutral | complementary => exact absurd rfl (hjunction _ _)
            · have hg : g.ModalFirst := by
                rcases mem_children_or_of_modalStep hstep hnot hjunction
                  with hmem | ⟨c, hc, hchildren⟩
                · exact ModalFirst.of_isNormal (hmodalparts g hmem)
                · refine ih' g hstep.weight_lt (hstep.isValid hf) ?_
                  rw [hchildren, List.forall_mem_singleton]
                  exact hparts c hc
              exact hg.congr haggressive hmodal
          cases f with
          | junction k fs => exact modalFirst_junction hf hparts ih'
          | not body =>
              have hbody := hparts body List.mem_cons_self
              rw [ModalFirst, simplify_not (Or.inr rfl) hbody hf, simplify_not_modal hbody.modal hf]
          | _ => exact hother (by simp) (by simp)

end Formula

end LinearTemporal

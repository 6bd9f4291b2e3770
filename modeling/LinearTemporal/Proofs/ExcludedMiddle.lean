import LinearTemporal.Proofs.Gathered
import LinearTemporal.Proofs.NextErasure
import LinearTemporal.Surface.Tree

/-!
# A formula beside its negation

A junction of a formula and its negation is to come to a constant.  What the rules look at is
neither of the two but what these have come to: negation has been pushed inward, and a formula
that is a junction with the same connective has been taken apart.  So whether the two are still
recognised as complements depends on what the formula itself comes to.  The propositional rules
recognise them unless one of the two is taken apart.  The modal rules push negation down to the
leaves, and recognise exactly the leaves, also after some steps.  With subsumption the same
leaves are recognised if the modal rules gather them from the operands of a formula that is
taken apart.
-/

namespace LinearTemporal

namespace Formula

variable {s : Strategy} {k : Connective}

/-!
## The pair that the rules see

With the propositional and the modal rules a formula and its negation may be simplified
before they are joined.  What they come to is the absorbing constant exactly if their
strands decide it.
-/

theorem mem_strands_pair {f g x : Formula} :
    x ∈ strands s k (join k [f, g]) ↔ x ∈ strands s k f ∨ x ∈ strands s k g := by
  rw [mem_strands_join]
  simp only [List.mem_cons, List.not_mem_nil, or_false, or_and_right, exists_or, exists_eq_left]

theorem KeepsStrands.simplify_eq_absorbing_iff {f : Formula} (h : KeepsStrands s k f) :
    f.simplify s = const k.absorbing ↔ f.IsDecided s k := by
  refine ⟨fun hsimplify => ?_, h.decided⟩
  apply Classical.byContradiction
  intro hundecided
  have hmem : const k.absorbing ∈ strands s k f := by
    rw [← h.undecided hundecided, hsimplify, strands_absorbing]
    exact List.mem_singleton_self _
  exact hundecided ⟨_, hmem, _, hmem, Opposed.absorbing⟩

theorem simplify_join_not_iff (hs : s = .propositional ∨ s = .modal) {f : Formula}
    (hf : f.IsValid) : (join k [f, not f]).simplify s = const k.absorbing ↔
      (join k [f.simplify s, (not f).simplify s]).IsDecided s k := by
  have hnot : (not f).IsValid := hf
  have hvalid : ∀ g ∈ [f, not f], g.IsValid := by
    simp [hf, hnot]
  rw [← simplify_join_simplify hs hvalid, List.map_cons, List.map_singleton]
  exact (keepsStrands_join_map hs hvalid).simplify_eq_absorbing_iff

/-!
## Propositional rules

They take one negation off or leave one, so one of a formula and its negation is the
complement of the other.  A junction that is taken apart does not meet its negation.
-/

theorem IsNormal.propositional {f : Formula} (h : f.IsNormal Strategy.modal.rules) :
    f.IsNormal Strategy.propositional.rules := by
  intro g hg rule hrule
  have hpropositional : rule ∈ Rule.propositional := by
    simpa [Strategy.rules, Strategy.groups] using hrule
  exact h g hg rule (List.mem_append_left _ hpropositional)

theorem simplify_not_propositional {f : Formula} (hnormal : f.IsNormal Strategy.propositional.rules)
    (hf : f.IsValid) : (not f).simplify .propositional = f.negated := by
  have hnot : (not f).IsValid := hf
  have hparts : ∀ c ∈ (not f).children, c.IsNormal Strategy.propositional.rules :=
    List.forall_mem_singleton.mpr hnormal
  have hleaf : ∀ {g : Formula}, g.IsValid → g.children = [] →
      g.simplify .propositional = g := fun hg hchildren =>
    simplify_of_isNormal (isNormal_of_children_eq_nil hg hchildren).propositional
  cases f with
  | const | literal | atom =>
      rw [simplify_of_firstOutcome hnot hparts rfl]
      exact hleaf rfl rfl
  | not body =>
      rw [simplify_of_firstOutcome hnot hparts rfl]
      exact simplify_of_isNormal (hnormal.children body List.mem_cons_self)
  | next | always | eventually | untl | release | junction =>
      exact simplify_of_firstOutcome_eq_none hnot hparts rfl

theorem simplify_not_eq_negated {f : Formula} (hf : f.IsValid) :
    (not f).simplify .propositional = (f.simplify .propositional).negated := by
  have hmap : (not f).mapChildren (simplify · .propositional) = not (f.simplify .propositional) :=
    IsUnary.not.mapChildren _ f
  have hnot : (not f).IsValid := hf
  rw [← simplify_mapChildren hnot, hmap,
    simplify_not_propositional (isNormal_simplify _ hf) (isValid_simplify _ hf)]

theorem not_gathers_propositional {body? : Formula → Option Formula} {wrap : Formula → Formula} :
    ¬ Strategy.Gathers .propositional k body? wrap :=
  fun h => nomatch h.modal

theorem complement?_negated (f : Formula) :
    f.complement? = some f.negated ∨ f.negated.complement? = some f := by
  unfold negated
  cases f.complement? with
  | none => exact Or.inr rfl
  | some g => exact Or.inl rfl

theorem Opposed.cases_of {x y : Formula} (h : Opposed s k x y) :
    (x = const k.absorbing ∧ y = const k.absorbing) ∨ x.complement? = some y ∨
      ∃ (body? : Formula → Option Formula) (wrap : Formula → Formula) (x' y' : Formula),
        s.Gathers k body? wrap ∧ x = wrap x' ∧ y = wrap y' ∧ Opposed s k x' y' := by
  cases h with
  | absorbing => exact Or.inl ⟨rfl, rfl⟩
  | complement hcomplement => exact Or.inr (Or.inl hcomplement)
  | wrapped h hopposed => exact Or.inr (Or.inr ⟨_, _, _, _, h, rfl, rfl, hopposed⟩)

theorem Opposed.eq_absorbing_or_complement {x y : Formula} (h : Opposed .propositional k x y) :
    (x = const k.absorbing ∧ y = const k.absorbing) ∨ x.complement? = some y := by
  rcases h.cases_of with habsorbing | hcomplement | ⟨_, _, _, _, hgathers, _⟩
  · exact Or.inl habsorbing
  · exact Or.inr hcomplement
  · exact absurd hgathers not_gathers_propositional

theorem not_opposed_of_isJunction {g : Formula}
    (hnormal : g.IsNormal Strategy.propositional.rules) (hg : g.IsValid)
    (hk : g.isJunction k = true) {x y : Formula}
    (hx : x ∈ strands .propositional k g ∨ x = not g)
    (hy : y ∈ strands .propositional k g ∨ y = not g) : ¬ Opposed .propositional k x y := by
  intro hopposed
  have hsize : ∀ {z : Formula}, z ∈ strands .propositional k g → z.size < g.size := by
    intro z hz
    rcases mem_strands_operandsUnder.mp hz with ⟨c, hc, hzc⟩
    have hzc := eq_of_mem_strands (hg.operandsUnder hc).1 hzc
      fun h => absurd h not_gathers_propositional
    rw [hzc, eq_junction_of_isJunction hk]
    exact size_lt_of_mem_children hc
  rcases hx with hx | rfl
  · rcases hy with hy | rfl
    · have hconst := hnormal.eq_absorbing_of_opposed (Or.inl rfl) hg hx hy hopposed
      rw [hconst] at hk
      cases hk
    · rcases hopposed.eq_absorbing_or_complement with ⟨_, heq⟩ | hcomplement
      · cases heq
      · have hlt := hsize hx
        cases x with
        | not body =>
            cases hcomplement
            simp only [size] at hlt
            omega
        | _ => cases hcomplement
  · rcases hopposed.eq_absorbing_or_complement with ⟨heq, _⟩ | hcomplement
    · cases heq
    · cases hcomplement
      rcases hy with hy | hy
      · exact Nat.lt_irrefl _ (hsize hy)
      · rw [hy] at hk
        cases hk

theorem mem_strands_not {f x : Formula} : x ∈ strands s k (not f) ↔ x = not f :=
  List.mem_singleton

theorem isJunction_eq_false_of_isDecided {f : Formula}
    (hnormal : f.IsNormal Strategy.propositional.rules) (hf : f.IsValid)
    (hdecided : (join k [f, f.negated]).IsDecided .propositional k) :
    f.isJunction k = false ∧ f.negated.isJunction k = false := by
  rcases hdecided with ⟨x, hx, y, hy, hopposed⟩
  rw [mem_strands_pair] at hx hy
  constructor
  · rw [Bool.eq_false_iff]
    intro hk
    have hnot : f.negated = not f := by
      cases f with
      | junction => rfl
      | _ => cases hk
    rw [hnot, mem_strands_not] at hx hy
    exact not_opposed_of_isJunction hnormal hf hk hx hy hopposed
  · rw [Bool.eq_false_iff]
    intro hk
    cases f with
    | not body =>
        rw [mem_strands_not] at hx hy
        exact not_opposed_of_isJunction (hnormal.children body List.mem_cons_self) hf hk hx.symm
          hy.symm hopposed
    | _ => cases hk

theorem isDecided_join_negated {f : Formula}
    (hnormal : f.IsNormal Strategy.propositional.rules) (hf : f.IsValid)
    (hk : f.isJunction k = false) (hknegated : f.negated.isJunction k = false) :
    (join k [f, f.negated]).IsDecided .propositional k := by
  have hnot : (not f).IsValid := hf
  have hsimplify := simplify_not_propositional hnormal hf
  have hvalid : f.negated.IsValid := by
    rw [← hsimplify]
    exact isValid_simplify _ hnot
  have hnormal' : f.negated.IsNormal Strategy.propositional.rules := by
    rw [← hsimplify]
    exact isNormal_simplify _ hnot
  have hself : ∀ x ∈ strands .propositional k f,
      x ∈ strands .propositional k (join k [f, f.negated]) :=
    fun x hx => mem_strands_pair.mpr (Or.inl hx)
  have hother : ∀ x ∈ strands .propositional k f.negated,
      x ∈ strands .propositional k (join k [f, f.negated]) :=
    fun x hx => mem_strands_pair.mpr (Or.inr hx)
  rcases complement?_negated f with hcomplement | hcomplement
  · exact isDecided_of_complement (Or.inl rfl) hcomplement hnormal hf hk hknegated hself hother
  · exact isDecided_of_complement (Or.inl rfl) hcomplement hnormal' hvalid hknegated hk hother hself

theorem isDecided_join_negated_iff {f : Formula}
    (hnormal : f.IsNormal Strategy.propositional.rules) (hf : f.IsValid) :
    (join k [f, f.negated]).IsDecided .propositional k ↔
      f.isJunction k = false ∧ f.negated.isJunction k = false :=
  ⟨isJunction_eq_false_of_isDecided hnormal hf,
    fun h => isDecided_join_negated hnormal hf h.1 h.2⟩

/-!
## Modal rules

A negation comes to the dual.  Nothing but a delayed leaf has a strand that is opposed
to one of its dual.
-/

/-- A leaf after some steps. -/
inductive IsDelayedLeaf : Formula → Prop where
  | const (value : Bool) : IsDelayedLeaf (const value)
  | literal (name : String) (negated : Bool) : IsDelayedLeaf (literal name negated)
  | atom (left : Term) (op : Comparison) (right : Term) : IsDelayedLeaf (atom left op right)
  | next {f : Formula} : IsDelayedLeaf f → IsDelayedLeaf (next f)

theorem IsDelayedLeaf.dual {f : Formula} (h : f.IsDelayedLeaf) : f.dual.IsDelayedLeaf := by
  induction h with
  | const | literal | atom => constructor
  | next _ ih => exact IsDelayedLeaf.next ih

theorem gathers_next (k : Connective) : Strategy.Gathers .modal k next? next :=
  ⟨rfl, Rule.Distributes.next k⟩

theorem IsDelayedLeaf.isDecided {f : Formula} (h : f.IsDelayedLeaf) :
    (join k [f, f.dual]).IsDecided .modal k := by
  simp only [IsDecided, mem_strands_pair]
  induction h with
  | const value =>
      have hmem : Formula.const k.absorbing ∈ strands .modal k (.const value) ∨
          Formula.const k.absorbing ∈ strands .modal k (Formula.const value).dual := by
        cases k <;> cases value <;> decide
      exact ⟨_, hmem, _, hmem, Opposed.absorbing⟩
  | literal | atom =>
      exact ⟨_, Or.inl (List.mem_singleton_self _), _, Or.inr (List.mem_singleton_self _),
        Opposed.complement rfl⟩
  | next _ ih =>
      rcases ih with ⟨x, hx, y, hy, hopposed⟩
      simp only [Formula.dual, strands_wrap (gathers_next k)]
      exact ⟨_, hx.imp List.mem_map_of_mem List.mem_map_of_mem, _,
        hy.imp List.mem_map_of_mem List.mem_map_of_mem,
        Opposed.wrapped (gathers_next k) hopposed⟩

theorem IsNormal.not_mem_strands {f : Formula} (hnormal : f.IsNormal Strategy.modal.rules)
    (hf : f.IsValid) (body : Formula) : not body ∉ strands .modal k f := by
  intro hmem
  rcases mem_strands_operandsUnder.mp hmem with ⟨g, hg, hmem⟩
  rcases hf.operandsUnder hg with ⟨hk, hgvalid⟩
  have heq := eq_of_mem_strands hk hmem fun h =>
    body?_eq_none_of_complement? (f := not body) h.distributes rfl
  exact ((hnormal.operandsUnder hg).isNegationNormal (Or.inl rfl) hgvalid).ne_not body heq.symm

theorem IsNormal.isDelayedLeaf_of_opposed {f : Formula}
    (hnormal : f.IsNormal Strategy.modal.rules) (hf : f.IsValid) {x y : Formula}
    (hx : x ∈ strands .modal k f) (hy : y ∈ strands .modal k f.dual)
    (hopposed : Opposed .modal k x y) : f.IsDelayedLeaf := by
  induction f using induction_on_children generalizing x y with
  | step f ih =>
      cases strandShape .modal k f with
      | neutral => exact IsDelayedLeaf.const _
      | junction fs =>
          -- The dual is a junction with the other connective, which is not taken apart.
          have hy : y = (junction k fs).dual := by
            cases k <;> exact List.mem_singleton.mp hy
          rw [hy] at hopposed
          rcases hopposed.cases_of with ⟨_, heq⟩ | hcomplement | ⟨_, _, _, _, h, _, heq, _⟩
          · cases heq
          · cases x with
            | not body => exact absurd hx (hnormal.not_mem_strands hf body)
            | _ => cases hcomplement
          · cases h.distributes <;> cases heq
      | @gathered body? wrap h body =>
          rw [strands_wrap h] at hx
          rcases List.mem_map.mp hx with ⟨x', hx', rfl⟩
          rcases hopposed.cases_of with ⟨heq, _⟩ | hcomplement |
            ⟨_, wrap', x'', y', h', heq, rfl, hopposed⟩
          · cases h.distributes <;> cases heq
          · have hnone := body?_eq_none_of_complement? h.distributes hcomplement
            rw [h.distributes.eq_some_iff.mpr rfl] at hnone
            cases hnone
          · rcases h.distributes.wrap_inj h'.distributes heq with ⟨rfl, rfl⟩
            have hchild := h.distributes.mem_children body
            have hbody : y' ∈ strands .modal k body.dual → body.IsDelayedLeaf := fun hy' =>
              ih body hchild (hnormal.children body hchild) (hf.children hchild) hx' hy' hopposed
            cases h.distributes with
            | next =>
                rw [Formula.dual, strands_wrap (gathers_next k)] at hy
                rcases List.mem_map.mp hy with ⟨_, hy', heq⟩
                cases heq
                exact IsDelayedLeaf.next (hbody hy')
            | always | eventually => cases List.mem_singleton.mp hy
      | leaf hleaf =>
          rw [hleaf.strands, List.mem_singleton] at hx
          rw [hx] at hopposed
          rcases hopposed.cases_of with ⟨rfl, _⟩ | hcomplement | ⟨_, _, _, _, h, rfl, _⟩
          · exact IsDelayedLeaf.const _
          · cases f with
            | const | literal | atom => constructor
            | not body => exact absurd rfl ((hnormal.isNegationNormal (Or.inl rfl) hf).ne_not body)
            | _ => cases hcomplement
          · have hnone := hleaf.ungathered h
            rw [h.distributes.eq_some_iff.mpr rfl] at hnone
            cases hnone

theorem isDecided_join_dual_iff {f : Formula} (hnormal : f.IsNormal Strategy.modal.rules)
    (hf : f.IsValid) : (join k [f, f.dual]).IsDecided .modal k ↔ f.IsDelayedLeaf := by
  refine ⟨?_, IsDelayedLeaf.isDecided⟩
  rintro ⟨x, hx, y, hy, hopposed⟩
  rw [mem_strands_pair] at hx hy
  rcases hx with hx | hx
  · rcases hy with hy | hy
    · rw [hnormal.eq_absorbing_of_opposed (Or.inr rfl) hf hx hy hopposed]
      exact IsDelayedLeaf.const _
    · exact hnormal.isDelayedLeaf_of_opposed hf hx hy hopposed
  · have hdual := hnormal.dual hf
    rcases hy with hy | hy
    · rw [← dual_dual hf] at hy
      rw [← dual_dual hf]
      exact (hdual.isDelayedLeaf_of_opposed hf.dual hx hy hopposed).dual
    · rw [eq_const_of_dual (hdual.eq_absorbing_of_opposed (Or.inr rfl) hf.dual hx hy hopposed)]
      exact IsDelayedLeaf.const _

/-!
## Subsumption

It leaves delayed leaves alone, and opposed operands are recognised before it applies.
A formula that comes to a constant decides a junction with its negation, whatever it is
taken apart into.
-/

theorem IsNormal.of_no_subsumption {f : Formula} (hnormal : f.IsNormal Strategy.modal.rules)
    (hparts : ∀ g ∈ f.children, g.IsNormal Strategy.aggressive.rules)
    (hroot : ∀ g, ¬ Rule.SubsumptionStep f g) : f.IsNormal Strategy.aggressive.rules := by
  apply IsNormal.of_children _ hparts
  intro rule hrule
  rcases List.mem_append.mp (Strategy.aggressive_rules ▸ hrule) with hrule | hrule
  · exact hnormal.root rule hrule
  · cases happly : rule.apply f with
    | none => rfl
    | some g =>
        exact absurd (Rule.SubsumptionStep.of_mem hrule (Rule.transform_of_apply happly)) (hroot g)

theorem IsDelayedLeaf.isNormal_aggressive {f : Formula} (h : f.IsDelayedLeaf)
    (hnormal : f.IsNormal Strategy.modal.rules) : f.IsNormal Strategy.aggressive.rules := by
  induction h with
  | const | literal | atom =>
      exact hnormal.of_no_subsumption (fun _ hg => nomatch hg) (fun _ hstep => nomatch hstep)
  | @next f _ ih =>
      have hbody : f.IsNormal Strategy.aggressive.rules :=
        ih (hnormal.children f List.mem_cons_self)
      exact hnormal.of_no_subsumption (List.forall_mem_singleton.mpr hbody)
        (fun _ hstep => nomatch hstep)

theorem IsDelayedLeaf.simplify_not {f : Formula} (hf : f.IsValid)
    (h : (f.simplify .aggressive).IsDelayedLeaf) :
    (not f).simplify .aggressive = (f.simplify .aggressive).dual := by
  have hnot : (not f).IsValid := hf
  have hmap : (not f).mapChildren (simplify · .aggressive) = not (f.simplify .aggressive) :=
    IsUnary.not.mapChildren _ f
  have hnormal := isNormal_simplify .aggressive hf
  have hvalid := isValid_simplify .aggressive hf
  have hdual : (f.simplify .aggressive).dual.IsNormal Strategy.aggressive.rules :=
    h.dual.isNormal_aggressive (hnormal.modal.dual hvalid)
  rw [← simplify_mapChildren hnot, hmap, Formula.simplify_not (Or.inr rfl) hnormal hvalid,
    simplify_of_isNormal hdual]

theorem simplify_join_not_of_const {f : Formula} (hf : f.IsValid) {value : Bool}
    (hconst : f.simplify .aggressive = const value) :
    (join k [f, not f]).simplify .aggressive = const k.absorbing := by
  have hnot : (not f).simplify .aggressive = const (!value) := by
    have h := IsDelayedLeaf.simplify_not hf (hconst ▸ IsDelayedLeaf.const value)
    rw [h, hconst]
    rfl
  have hparts := isNormal_and_isValid_of_mem_operandsUnder (s := .aggressive) (k := k) hf
  have hoperands := simplify_join_operandsUnder (s := .aggressive) (k := k) hf
  rw [simplify_join_pair (g := not f) hf hf rfl, hnot]
  by_cases hvalue : value = k.absorbing
  · have hneutral : const (!value) = const k.neutral := by
      rw [hvalue, Connective.absorbing, Bool.not_not]
    rw [hneutral, join_append_comm, List.singleton_append,
      simplify_join_neutral_cons_of_isNormal Strategy.noConfusion (fun g hg => (hparts g hg).2)
        (fun g hg => (hparts g hg).1), hoperands, hconst, hvalue]
  · rw [← Bool.eq_not_of_ne (fun h => hvalue h.symm)]
    exact simplify_join_append_absorbing Strategy.noConfusion hparts

theorem simplify_join_not_of_isDecided {f : Formula} (hf : f.IsValid)
    (hdecided : (join k [f.gathered k, (not f).simplify .aggressive]).IsDecided .modal k) :
    (join k [f, not f]).simplify .aggressive = const k.absorbing := by
  have hnot : (not f).IsValid := hf
  have hnormal : ∀ g ∈ [f.gathered k, (not f).simplify .aggressive],
      g.IsNormal Strategy.modal.rules := by
    simp [isNormal_gathered hf, (isNormal_simplify .aggressive hnot).modal]
  have hvalid : ∀ g ∈ [f.gathered k, (not f).simplify .aggressive], g.IsValid := by
    simp [isValid_gathered hf, isValid_simplify .aggressive hnot]
  have hmodal : (join k [f.gathered k, (not f).simplify .aggressive]).simplify .modal =
      const k.absorbing :=
    (keepsStrands (Or.inr rfl) (isValid_join hvalid)
      (isNormal_operandsUnder_join hnormal hvalid)).decided hdecided
  rw [simplify_join_gathered hf hnot rfl, hmodal, simplify_const]

theorem IsDelayedLeaf.isDecided_gathered {f : Formula} (hf : f.IsValid)
    (h : (f.gathered k).IsDelayedLeaf) :
    (join k [f.gathered k, (not f).simplify .aggressive]).IsDecided .modal k := by
  have hself : f.simplify .aggressive = f.gathered k := by
    rw [← simplify_gathered (k := k) hf]
    exact simplify_of_isNormal (h.isNormal_aggressive (isNormal_gathered hf))
  rw [IsDelayedLeaf.simplify_not hf (hself ▸ h), hself]
  exact h.isDecided

/-!
## A formula and its negation

An implication of a formula by itself is read as a disjunction of the formula and its
negation, or of a proposition and its complement.
-/

theorem isNormal_leaf (hs : s ≠ .pullNext) {f : Formula} (hf : f.IsDelayedLeaf)
    (hvalid : f.IsValid) (hchildren : f.children = []) : f.IsNormal s.rules := by
  have hnormal := isNormal_of_children_eq_nil hvalid hchildren
  cases s with
  | pullNext => exact absurd rfl hs
  | propositional => exact hnormal.propositional
  | modal => exact hnormal
  | aggressive => exact hf.isNormal_aggressive hnormal

theorem simplify_disj_literal (hs : s ≠ .pullNext) (name : String) :
    (disj [literal name true, literal name false]).simplify s =
      (disj [literal name false, not (literal name false)]).simplify s := by
  have hleaf : ∀ negated, (literal name negated).IsNormal s.rules :=
    fun negated => isNormal_leaf hs (IsDelayedLeaf.literal name negated) rfl rfl
  have hfirst : Rule.firstOutcome (not (literal name false)) s.rules =
      some (literal name true) := by
    cases s with
    | pullNext => exact absurd rfl hs
    | propositional | modal | aggressive => rfl
  have hvalid : (not (literal name false)).IsValid := rfl
  have hnot : (not (literal name false)).simplify s = literal name true := by
    rw [simplify_of_firstOutcome hvalid (List.forall_mem_singleton.mpr (hleaf false)) hfirst,
      simplify_of_isNormal (hleaf true)]
  have hoperands : (literal name false).operandsUnder .or = [literal name false] := rfl
  unfold disj
  rw [simplify_join_pair (f := literal name false) rfl hvalid rfl, hnot, hoperands,
    List.map_singleton, simplify_of_isNormal (hleaf false), ← join_append_comm]
  rfl

theorem simplify_implication_self (hs : s ≠ .pullNext) (f : Formula) :
    (Surface.implication f f).simplify s = (disj [f, not f]).simplify s := by
  by_cases hliteral : ∃ name, f = literal name false
  · rcases hliteral with ⟨name, rfl⟩
    exact simplify_disj_literal hs name
  · have hnegate : Surface.negate f = not f := by
      cases f with
      | literal name negated =>
          cases negated with
          | false => exact absurd ⟨name, rfl⟩ hliteral
          | true => rfl
      | _ => rfl
    have hswap : disj [not f, f] = disj [f, not f] := join_append_comm [not f] [f]
    unfold Surface.implication
    rw [hnegate, hswap]

/-- What a formula and its negation come to together.  The propositional rules see two
complements unless one of them is taken apart.  The modal rules see them exactly in leaves, also
after some steps.  With subsumption these are seen where the modal rules gather them from the
simplified operands of the formula, and so are other operands that are opposed to one of the
negation. -/
theorem simplify_join_not {f : Formula} (hf : f.IsValid) (k : Connective) :
    ((join k [f, not f]).simplify .propositional = const k.absorbing ↔
      (f.simplify .propositional).isJunction k = false ∧
        ((not f).simplify .propositional).isJunction k = false) ∧
    ((join k [f, not f]).simplify .modal = const k.absorbing ↔
      (f.simplify .modal).IsDelayedLeaf) ∧
    ((∃ value, f.simplify .aggressive = const value) ∨ (f.gathered k).IsDelayedLeaf ∨
        (join k [f.gathered k, (not f).simplify .aggressive]).IsDecided .modal k →
      (join k [f, not f]).simplify .aggressive = const k.absorbing) ∧
    ∀ s, s ≠ .pullNext →
      (Surface.implication f f).simplify s = (disj [f, not f]).simplify s := by
  have hnot : (not f).IsValid := hf
  refine ⟨?_, ?_, ?_, fun s hs => simplify_implication_self hs f⟩
  · rw [simplify_join_not_iff (Or.inl rfl) hf, simplify_not_eq_negated hf]
    exact isDecided_join_negated_iff (isNormal_simplify _ hf) (isValid_simplify _ hf)
  · rw [simplify_join_not_iff (Or.inr rfl) hf, simplify_not_eq_dual hf]
    exact isDecided_join_dual_iff (isNormal_simplify _ hf) (isValid_simplify _ hf)
  · rintro (⟨value, hconst⟩ | hleaf | hdecided)
    · exact simplify_join_not_of_const hf hconst
    · exact simplify_join_not_of_isDecided hf (hleaf.isDecided_gathered hf)
    · exact simplify_join_not_of_isDecided hf hdecided

theorem simplify_join_not_next :
    let f : Formula := next (atom (.var "x") .lt (.int 1))
    f.IsValid ∧ (disj [f, not f]).simplify .modal = const true ∧
      (Surface.implication f f).simplify .modal = const true := by
  intro f
  have hf : f.IsValid := rfl
  have hleaf : (f.simplify .modal).IsDelayedLeaf := by
    have hself : f.simplify .modal = f := by decide +kernel
    rw [hself]
    exact IsDelayedLeaf.next (IsDelayedLeaf.atom _ _ _)
  have hall := simplify_join_not hf .or
  have hdisj : (disj [f, not f]).simplify .modal = const true := hall.2.1.mpr hleaf
  refine ⟨hf, hdisj, ?_⟩
  rw [hall.2.2.2 .modal Strategy.noConfusion]
  exact hdisj

/-- The disjunction `a | b | !(a | b)` is not recognised, and neither is `G a & !G a` once the
negation is pushed inward. -/
theorem exists_simplify_join_not_ne :
    let f : Formula := junction .or [literal "a" false, literal "b" false]
    let g : Formula := always (literal "a" false)
    f.IsValid ∧ (disj [f, not f]).simplify .propositional ≠ const true ∧
      (disj [f, not f]).simplify .modal ≠ const true ∧
      (disj [f, not f]).simplify .aggressive ≠ const true ∧
      g.IsValid ∧ (conj [g, not g]).simplify .modal ≠ const false ∧
      (conj [g, not g]).simplify .aggressive ≠ const false := by
  decide +kernel

end Formula

end LinearTemporal

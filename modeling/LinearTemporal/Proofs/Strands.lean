import LinearTemporal.Proofs.BottomUp
import LinearTemporal.Proofs.NegationNormal

/-!
# What a junction comes to

The propositional and the modal rules treat a junction as the set of its strands: what is
left when nested junctions with the same connective are taken apart, and with them the
operators that the modal rules gather.  A strand keeps the operators above it.

A normal formula is determined by its strands.  Simplifying a junction with normal operands
keeps the strands, or gives the absorbing constant if two of them are opposed.  So what a
junction comes to depends on the strands of its operands alone, and the operands may be
simplified beforehand whatever becomes of them.
-/

namespace LinearTemporal

open Formula

/-- The strategy gathers operators of this kind in junctions with connective `k`. -/
structure Strategy.Gathers (s : Strategy) (k : Connective) (body? : Formula → Option Formula)
    (wrap : Formula → Formula) : Prop where
  modal : s = .modal
  distributes : Rule.Distributes k body? wrap

theorem Strategy.Gathers.ne_pullNext {s : Strategy} {k : Connective}
    {body? : Formula → Option Formula} {wrap : Formula → Formula} (h : s.Gathers k body? wrap) :
    s ≠ .pullNext := by
  rw [h.modal]
  exact Strategy.noConfusion

theorem Strategy.ne_pullNext {s : Strategy} (hs : s = .propositional ∨ s = .modal) :
    s ≠ .pullNext := by
  rintro rfl
  rcases hs with hs | hs <;> cases hs

theorem Rule.Distributes.wrap_inj {k : Connective} {body? body?' : Formula → Option Formula}
    {wrap wrap' : Formula → Formula} (h : Rule.Distributes k body? wrap)
    (h' : Rule.Distributes k body?' wrap') {f g : Formula} (heq : wrap f = wrap' g) :
    wrap = wrap' ∧ f = g := by
  cases h <;> cases h' <;> cases heq <;> exact ⟨rfl, rfl⟩

theorem Rule.Distributes.children_wrap {k : Connective} {body? : Formula → Option Formula}
    {wrap : Formula → Formula} (h : Rule.Distributes k body? wrap) (body : Formula) :
    (wrap body).children = [body] :=
  h.isUnary.children body

theorem Rule.Distributes.mem_children {k : Connective} {body? : Formula → Option Formula}
    {wrap : Formula → Formula} (h : Rule.Distributes k body? wrap) (body : Formula) :
    body ∈ (wrap body).children := by
  rw [h.children_wrap]
  exact List.mem_singleton_self body

namespace Formula

/-!
## Strands

Joining keeps the strands.  A strand below a gathered operator is one of a formula with
that operator at its root, and a strand without an operator above it is the formula.
-/

mutual

/-- The strands of a formula in a junction with connective `k`. -/
def strands (s : Strategy) (k : Connective) : Formula → List Formula
  | const value => if value = k.neutral then [] else [const value]
  | next body => if s = .modal then (strands s k body).map next else [next body]
  | always body =>
      if s = .modal ∧ k = .and then (strands s k body).map always else [always body]
  | eventually body =>
      if s = .modal ∧ k = .or then (strands s k body).map eventually else [eventually body]
  | junction l fs => if l = k then strandsAll s k fs else [junction l fs]
  | f => [f]

def strandsAll (s : Strategy) (k : Connective) : List Formula → List Formula
  | [] => []
  | f :: fs => strands s k f ++ strandsAll s k fs

end

variable {s : Strategy} {k : Connective} {body? : Formula → Option Formula}
  {wrap : Formula → Formula}

theorem strandsAll_eq_flatMap (fs : List Formula) :
    strandsAll s k fs = fs.flatMap (strands s k) := by
  induction fs with
  | nil => rfl
  | cons f fs ih => rw [strandsAll, ih, List.flatMap_cons]

theorem strands_neutral : strands s k (const k.neutral) = [] :=
  if_pos rfl

theorem strands_absorbing : strands s k (const k.absorbing) = [const k.absorbing] := by
  cases k <;> rfl

theorem mem_strands_junction {fs : List Formula} {x : Formula} :
    x ∈ strands s k (junction k fs) ↔ ∃ f ∈ fs, x ∈ strands s k f := by
  rw [strands, if_pos rfl, strandsAll_eq_flatMap, List.mem_flatMap]

theorem strands_wrap (h : s.Gathers k body? wrap) (body : Formula) :
    strands s k (wrap body) = (strands s k body).map wrap := by
  rcases h with ⟨rfl, hdistributes⟩
  cases hdistributes with
  | always | eventually => exact if_pos ⟨rfl, rfl⟩
  | next => exact if_pos rfl

theorem mem_strands_operandsUnder {f x : Formula} :
    x ∈ strands s k f ↔ ∃ g ∈ f.operandsUnder k, x ∈ strands s k g := by
  cases hk : f.isJunction k with
  | true =>
      rw [eq_junction_of_isJunction hk, mem_strands_junction]
      simp only [mem_operandsUnder_junction]
  | false =>
      rw [operandsUnder_of_isJunction_eq_false hk]
      simp only [List.mem_singleton, exists_eq_left]

theorem size_le_of_mem_operandsUnder {f g : Formula} (h : g ∈ f.operandsUnder k) :
    g.size ≤ f.size := by
  cases hk : f.isJunction k with
  | true =>
      rw [eq_junction_of_isJunction hk]
      exact Nat.le_of_lt (size_lt_of_mem_children h)
  | false =>
      rw [operandsUnder_of_isJunction_eq_false hk] at h
      rw [List.mem_singleton.mp h]

theorem mem_strands_join {fs : List Formula} {x : Formula} :
    x ∈ strands s k (join k fs) ↔ ∃ f ∈ fs, x ∈ strands s k f := by
  have hcollapse : x ∈ strands s k (join k fs) ↔ ∃ g ∈ joinOperands k fs, x ∈ strands s k g := by
    rw [join_eq_collapse]
    match joinOperands k fs with
    | [] => simp [collapse, strands_neutral]
    | [f] => simp [collapse]
    | f :: g :: gs => exact mem_strands_junction
  rw [hcollapse]
  constructor
  · rintro ⟨g, hg, hx⟩
    rcases mem_joinOperands.mp hg with ⟨f, hf, hgf⟩
    exact ⟨f, hf, mem_strands_operandsUnder.mpr ⟨g, hgf, hx⟩⟩
  · rintro ⟨f, hf, hx⟩
    rcases mem_strands_operandsUnder.mp hx with ⟨g, hgf, hx⟩
    exact ⟨g, mem_joinOperands.mpr ⟨f, hf, hgf⟩, hx⟩

structure IsLeaf (s : Strategy) (k : Connective) (f : Formula) : Prop where
  strands : strands s k f = [f]
  ungathered : ∀ {body? : Formula → Option Formula} {wrap : Formula → Formula},
    s.Gathers k body? wrap → body? f = none

/-- How a formula can contribute strands. -/
inductive StrandShape (s : Strategy) (k : Connective) : Formula → Prop where
  | neutral : StrandShape s k (const k.neutral)
  | junction (fs : List Formula) : StrandShape s k (junction k fs)
  | gathered {body? : Formula → Option Formula} {wrap : Formula → Formula}
      (h : s.Gathers k body? wrap) (body : Formula) : StrandShape s k (wrap body)
  | leaf {f : Formula} : IsLeaf s k f → StrandShape s k f

theorem strandShape (s : Strategy) (k : Connective) (f : Formula) : StrandShape s k f := by
  have hungathered : ∀ {g : Formula},
      (∀ body, g = next body → s ≠ .modal) →
      (∀ body, g = always body → ¬ (s = .modal ∧ k = .and)) →
      (∀ body, g = eventually body → ¬ (s = .modal ∧ k = .or)) →
      ∀ {body? wrap}, s.Gathers k body? wrap → body? g = none := by
    intro g hnext halways heventually body? wrap h
    cases hbody : body? g with
    | none => rfl
    | some body =>
        have hg := h.distributes.eq_some_iff.mp hbody
        rcases h with ⟨hs, hdistributes⟩
        cases hdistributes with
        | always => exact absurd ⟨hs, rfl⟩ (halways body hg)
        | eventually => exact absurd ⟨hs, rfl⟩ (heventually body hg)
        | next => exact absurd hs (hnext body hg)
  cases f with
  | const value =>
      by_cases hvalue : value = k.neutral
      · rw [hvalue]
        exact StrandShape.neutral
      · exact StrandShape.leaf ⟨if_neg hvalue, hungathered (by simp) (by simp) (by simp)⟩
  | literal | atom | not | untl | release =>
      exact StrandShape.leaf ⟨rfl, hungathered (by simp) (by simp) (by simp)⟩
  | next body =>
      by_cases hs : s = .modal
      · exact StrandShape.gathered ⟨hs, Rule.Distributes.next k⟩ body
      · exact StrandShape.leaf ⟨if_neg hs, hungathered (by simp [hs]) (by simp) (by simp)⟩
  | always body =>
      by_cases h : s = .modal ∧ k = .and
      · rcases h with ⟨hs, rfl⟩
        exact StrandShape.gathered ⟨hs, Rule.Distributes.always⟩ body
      · exact StrandShape.leaf ⟨if_neg h, hungathered (by simp) (by simp [h]) (by simp)⟩
  | eventually body =>
      by_cases h : s = .modal ∧ k = .or
      · rcases h with ⟨hs, rfl⟩
        exact StrandShape.gathered ⟨hs, Rule.Distributes.eventually⟩ body
      · exact StrandShape.leaf ⟨if_neg h, hungathered (by simp) (by simp) (by simp [h])⟩
  | junction l fs =>
      by_cases hl : l = k
      · rw [hl]
        exact StrandShape.junction fs
      · exact StrandShape.leaf ⟨if_neg hl, hungathered (by simp) (by simp) (by simp)⟩

theorem eq_wrap_of_mem_strands (h : s.Gathers k body? wrap) {f x : Formula}
    (hk : f.isJunction k = false) (hx : wrap x ∈ strands s k f) :
    ∃ body, f = wrap body ∧ x ∈ strands s k body := by
  cases strandShape s k f with
  | neutral =>
      rw [strands_neutral] at hx
      cases hx
  | junction fs => simp [isJunction] at hk
  | @gathered body?' wrap' h' body =>
      rw [strands_wrap h'] at hx
      rcases List.mem_map.mp hx with ⟨y, hy, hwrap⟩
      rcases h.distributes.wrap_inj h'.distributes hwrap.symm with ⟨rfl, rfl⟩
      exact ⟨body, rfl, hy⟩
  | leaf hleaf =>
      rw [hleaf.strands] at hx
      have hnone := hleaf.ungathered h
      rw [← List.mem_singleton.mp hx, h.distributes.eq_some_iff.mpr rfl] at hnone
      cases hnone

theorem eq_of_mem_strands {f x : Formula} (hk : f.isJunction k = false)
    (hx : x ∈ strands s k f)
    (hungathered : ∀ {body? : Formula → Option Formula} {wrap : Formula → Formula},
      s.Gathers k body? wrap → body? x = none) : x = f := by
  cases strandShape s k f with
  | neutral =>
      rw [strands_neutral] at hx
      cases hx
  | junction fs => simp [isJunction] at hk
  | gathered h body =>
      rw [strands_wrap h] at hx
      rcases List.mem_map.mp hx with ⟨y, _, rfl⟩
      have hnone := hungathered h
      rw [h.distributes.eq_some_iff.mpr rfl] at hnone
      cases hnone
  | leaf hleaf =>
      rw [hleaf.strands] at hx
      exact List.mem_singleton.mp hx

end Formula

/-!
## What does not occur in normal formulas

The laws of the first two groups exclude constants and complements among the operands of
a normal formula, and a second operand with a gathered operator.
-/

namespace Rule

theorem isSome_complementaryOperands {k : Connective} {fs : List Formula} {f g : Formula}
    (hf : f ∈ fs) (hg : g ∈ fs) (hcomplement : f.complement? = some g) :
    (complementaryOperands (.junction k fs)).isSome = true := by
  have hany : (fs.filterMap complement?).any (fun f => fs.contains f) = true :=
    List.any_eq_true.mpr
      ⟨g, List.mem_filterMap.mpr ⟨f, hf, hcomplement⟩, List.contains_iff_mem.mpr hg⟩
  simp only [complementaryOperands, hany, if_true, Option.isSome_some]

theorem isSome_mergeUnder {k : Connective} {body? : Formula → Option Formula}
    (wrap : Formula → Formula) {fs : List Formula} (h : 2 ≤ (fs.filterMap body?).length) :
    (mergeUnder k body? wrap fs).isSome = true := by
  simp only [mergeUnder, if_neg (Nat.not_lt.mpr h), Option.isSome_some]

theorem Distributes.isSome_mergeTemporal {k : Connective} {body? : Formula → Option Formula}
    {wrap : Formula → Formula} (h : Distributes k body? wrap) {fs : List Formula}
    (hcount : 2 ≤ (fs.filterMap body?).length) :
    (mergeTemporal (.junction k fs)).isSome = true := by
  have hmerge := isSome_mergeUnder (k := k) wrap hcount
  cases h with
  | always | eventually => simp [mergeTemporal, hmerge]
  | next => cases k <;> simp [mergeTemporal, hmerge]

theorem Distributes.isSome_temporalIdempotence {k : Connective}
    {body? : Formula → Option Formula} {wrap : Formula → Formula} (h : Distributes k body? wrap)
    {body : Formula} (hbody : body.isSuffixInvariant = true) :
    (temporalIdempotence (wrap body)).isSome = true := by
  cases h <;> simp [temporalIdempotence, hbody]

end Rule

theorem Strategy.Gathers.mem_rules {s : Strategy} {k : Connective}
    {body? : Formula → Option Formula} {wrap : Formula → Formula} (h : s.Gathers k body? wrap)
    {transform : Formula → Option Formula} (hmodal : transform ∈ Rule.modal.map Rule.transform) :
    transform ∈ s.rules.map Rule.transform := by
  rcases h with ⟨rfl, _⟩
  show transform ∈ (Rule.propositional ++ Rule.modal).map Rule.transform
  rw [List.map_append]
  exact List.mem_append_right _ hmodal

theorem Strategy.Gathers.invariant_or_idempotent {s : Strategy} {k : Connective}
    {body? : Formula → Option Formula} {wrap : Formula → Formula} (h : s.Gathers k body? wrap)
    {rule : Rule} (hrule : rule ∈ s.rules) {body g : Formula}
    (htransform : rule.transform (wrap body) = some g) :
    body.isSuffixInvariant = true ∨
      ∃ m, body = wrap m ∧ ∀ c, Rule.IsRedex s.rules (wrap (wrap c)) := by
  have hidempotent : ∀ f, (Rule.temporalIdempotence f).isSome = true → Rule.IsRedex s.rules f :=
    fun f => Rule.IsRedex.of_transform _ (h.mem_rules (by simp [Rule.modal]))
  rcases h with ⟨rfl, hdistributes⟩
  rcases List.mem_append.mp (show rule ∈ Rule.propositional ++ Rule.modal from hrule)
    with hrule | hrule
  · have hstep := Rule.PropositionalStep.of_mem hrule htransform
    cases hdistributes <;> cases hstep
  · have hstep := Rule.ModalStep.of_mem hrule htransform
    cases hdistributes with
    | next =>
        cases hstep with
        | nextConst => exact Or.inl rfl
        | nextInvariant hbody => exact Or.inl hbody
    | always =>
        cases hstep with
        | alwaysConst => exact Or.inl rfl
        | alwaysInvariant hbody => exact Or.inl hbody
        | alwaysAlways m => exact Or.inr ⟨m, rfl, fun c => hidempotent _ rfl⟩
    | eventually =>
        cases hstep with
        | eventuallyConst => exact Or.inl rfl
        | eventuallyInvariant hbody => exact Or.inl hbody
        | eventuallyEventually m => exact Or.inr ⟨m, rfl, fun c => hidempotent _ rfl⟩

theorem two_le_length_of_mem {α : Type} {xs : List α} {x y : α} (hx : x ∈ xs) (hy : y ∈ xs)
    (hne : x ≠ y) : 2 ≤ xs.length := by
  match xs with
  | [] => cases hx
  | [z] => exact absurd ((List.mem_singleton.mp hx).trans (List.mem_singleton.mp hy).symm) hne
  | _ :: _ :: _ => exact Nat.le_add_left 2 _

namespace Formula.IsNormal

variable {s : Strategy} {k : Connective} {body? : Formula → Option Formula}
  {wrap : Formula → Formula}

section

variable (hs : s ≠ .pullNext) {fs : List Formula} (hnormal : (junction k fs).IsNormal s.rules)
  (hvalid : (junction k fs).IsValid)

include hs hnormal hvalid

theorem const_not_mem (value : Bool) : const value ∉ fs := by
  intro hmem
  refine hnormal.not_isRedex hvalid (Rule.IsRedex.mono ?_ fun _ => s.propositional_subset_rules hs)
  exact Rule.IsRedex.of_transform Rule.foldConstants (by simp [Rule.propositional])
    (Rule.isSome_foldConstants hmem)

theorem complement_not_mem {f g : Formula} (hf : f ∈ fs) (hg : g ∈ fs) :
    f.complement? ≠ some g := by
  intro hcomplement
  refine hnormal.not_isRedex hvalid (Rule.IsRedex.mono ?_ fun _ => s.propositional_subset_rules hs)
  exact Rule.IsRedex.of_transform Rule.complementaryOperands (by simp [Rule.propositional])
    (Rule.isSome_complementaryOperands hf hg hcomplement)

end

section

variable (h : s.Gathers k body? wrap)

include h

theorem not_isSuffixInvariant {body : Formula} (hnormal : (wrap body).IsNormal s.rules)
    (hvalid : body.IsValid) : body.isSuffixInvariant = false := by
  apply Bool.eq_false_iff.mpr
  intro hbody
  apply hnormal.not_isRedex (h.distributes.isValid_iff.mpr hvalid)
  exact Rule.IsRedex.of_transform Rule.temporalIdempotence (h.mem_rules (by simp [Rule.modal]))
    (h.distributes.isSome_temporalIdempotence hbody)

theorem body_unique {n : Formula} (hnormal : n.IsNormal s.rules) (hvalid : n.IsValid)
    {body body' : Formula} (hbody : wrap body ∈ n.operandsUnder k)
    (hbody' : wrap body' ∈ n.operandsUnder k) : body = body' := by
  cases hk : n.isJunction k with
  | true =>
      apply Classical.byContradiction
      intro hne
      have hcount : 2 ≤ ((n.operandsUnder k).filterMap body?).length :=
        two_le_length_of_mem
          (List.mem_filterMap.mpr ⟨_, hbody, h.distributes.eq_some_iff.mpr rfl⟩)
          (List.mem_filterMap.mpr ⟨_, hbody', h.distributes.eq_some_iff.mpr rfl⟩) hne
      apply hnormal.not_isRedex hvalid
      rw [eq_junction_of_isJunction hk]
      exact Rule.IsRedex.of_transform Rule.mergeTemporal (h.mem_rules (by simp [Rule.modal]))
        (h.distributes.isSome_mergeTemporal hcount)
  | false =>
      rw [operandsUnder_of_isJunction_eq_false hk] at hbody hbody'
      have heq := (List.mem_singleton.mp hbody).trans (List.mem_singleton.mp hbody').symm
      exact (h.distributes.wrap_inj h.distributes heq).2

end

/-!
## Normal formulas are determined by their strands

By induction over the size: where the gathered operands agree, more strands come from
more operands, so the same strands come from the same ones.
-/

theorem operandsUnder {n g : Formula} (hnormal : n.IsNormal s.rules)
    (hg : g ∈ n.operandsUnder k) : g.IsNormal s.rules := by
  cases hk : n.isJunction k with
  | true =>
      rw [eq_junction_of_isJunction hk] at hnormal
      exact hnormal.children g hg
  | false =>
      rw [operandsUnder_of_isJunction_eq_false hk] at hg
      rw [List.mem_singleton.mp hg]
      exact hnormal

theorem mem_strands_body_iff (h : s.Gathers k body? wrap) {n : Formula}
    (hnormal : n.IsNormal s.rules) (hvalid : n.IsValid) {body : Formula}
    (hbody : wrap body ∈ n.operandsUnder k) {x : Formula} :
    x ∈ strands s k body ↔ wrap x ∈ strands s k n := by
  constructor
  · intro hx
    refine mem_strands_operandsUnder.mpr ⟨_, hbody, ?_⟩
    rw [strands_wrap h]
    exact List.mem_map_of_mem hx
  · intro hx
    rcases mem_strands_operandsUnder.mp hx with ⟨g, hg, hx⟩
    rcases eq_wrap_of_mem_strands h (hvalid.operandsUnder hg).1 hx with ⟨body', rfl, hbody'⟩
    rw [body_unique h hnormal hvalid hbody hg]
    exact hbody'

section

variable (hs : s ≠ .pullNext)

include hs

theorem eq_neutral_of_strands_eq_nil {n : Formula} (hnormal : n.IsNormal s.rules)
    (hvalid : n.IsValid) (hstrands : strands s k n = []) : n = const k.neutral := by
  induction n using induction_on_children with
  | step n ih =>
      cases strandShape s k n with
      | neutral => rfl
      | junction fs =>
          have hlength := (isValid_junction.mp hvalid).1
          rcases List.exists_mem_of_length_pos (Nat.lt_of_lt_of_le Nat.zero_lt_two hlength)
            with ⟨f, hf⟩
          have hnil : strands s k f = [] := by
            apply List.eq_nil_iff_forall_not_mem.mpr
            intro x hx
            have hmem := mem_strands_junction.mpr ⟨f, hf, hx⟩
            rw [hstrands] at hmem
            cases hmem
          have hneutral := ih f hf (hnormal.children f hf) (hvalid.children hf) hnil
          rw [hneutral] at hf
          exact absurd hf (hnormal.const_not_mem hs hvalid _)
      | @gathered body? wrap h body =>
          rw [strands_wrap h] at hstrands
          have hchild : body ∈ (wrap body).children := h.distributes.mem_children body
          have hneutral := ih body hchild (hnormal.children body hchild) (hvalid.children hchild)
            (List.map_eq_nil_iff.mp hstrands)
          have hinvariant := hnormal.not_isSuffixInvariant h (hvalid.children hchild)
          rw [hneutral] at hinvariant
          cases hinvariant
      | leaf hleaf =>
          rw [hleaf.strands] at hstrands
          cases hstrands

theorem eq_neutral_of_strands_subset {n : Formula} (hnormal : n.IsNormal s.rules)
    (hvalid : n.IsValid) (h : ∀ x ∈ strands s k n, x ∈ strands s k (const k.neutral)) :
    n = const k.neutral := by
  refine eq_neutral_of_strands_eq_nil hs hnormal hvalid (List.eq_nil_iff_forall_not_mem.mpr ?_)
  intro x hx
  have hmem := h x hx
  rw [strands_neutral] at hmem
  cases hmem

theorem exists_strand (h : s.Gathers k body? wrap) {body : Formula}
    (hnormal : (wrap body).IsNormal s.rules) (hvalid : body.IsValid) :
    ∃ x, x ∈ strands s k body := by
  apply List.exists_mem_of_ne_nil
  intro hnil
  have hchild := h.distributes.mem_children body
  have hinvariant := hnormal.not_isSuffixInvariant h hvalid
  rw [eq_neutral_of_strands_eq_nil hs (hnormal.children body hchild) hvalid hnil] at hinvariant
  cases hinvariant

theorem neutral_not_mem_operandsUnder {n : Formula} (hnormal : n.IsNormal s.rules)
    (hvalid : n.IsValid) (hne : n ≠ const k.neutral) : const k.neutral ∉ n.operandsUnder k := by
  cases hk : n.isJunction k with
  | true =>
      rw [eq_junction_of_isJunction hk] at hnormal hvalid
      exact hnormal.const_not_mem hs hvalid _
  | false =>
      rw [operandsUnder_of_isJunction_eq_false hk]
      intro hmem
      exact hne (List.mem_singleton.mp hmem).symm

theorem operandsUnder_subset_of_strands {f g : Formula} (hf : f.IsNormal s.rules)
    (hfvalid : f.IsValid) (hgvalid : g.IsValid) (hne : f ≠ const k.neutral)
    (hstrands : ∀ x ∈ strands s k f, x ∈ strands s k g)
    (hbodies : ∀ {body? : Formula → Option Formula} {wrap : Formula → Formula},
      s.Gathers k body? wrap → ∀ {b b' : Formula}, wrap b ∈ f.operandsUnder k →
        wrap b' ∈ g.operandsUnder k → b = b') :
    f.operandsUnder k ⊆ g.operandsUnder k := by
  intro c hc
  rcases hfvalid.operandsUnder hc with ⟨hk, hcvalid⟩
  cases strandShape s k c with
  | neutral => exact absurd hc (neutral_not_mem_operandsUnder hs hf hfvalid hne)
  | junction fs => simp [isJunction] at hk
  | @gathered body? wrap h body =>
      have hbody : body.IsValid := hcvalid.children (h.distributes.mem_children body)
      rcases exists_strand hs h (hf.operandsUnder hc) hbody with ⟨x, hx⟩
      have hxg := hstrands _ ((mem_strands_body_iff h hf hfvalid hc).mp hx)
      rcases mem_strands_operandsUnder.mp hxg with ⟨d, hd, hxd⟩
      rcases eq_wrap_of_mem_strands h (hgvalid.operandsUnder hd).1 hxd with ⟨body', rfl, _⟩
      rw [hbodies h hc hd]
      exact hd
  | leaf hleaf =>
      have hcf : c ∈ strands s k f := by
        refine mem_strands_operandsUnder.mpr ⟨c, hc, ?_⟩
        rw [hleaf.strands]
        exact List.mem_singleton_self c
      rcases mem_strands_operandsUnder.mp (hstrands c hcf) with ⟨d, hd, hcd⟩
      rw [eq_of_mem_strands (hgvalid.operandsUnder hd).1 hcd hleaf.ungathered]
      exact hd

/-- Normal formulas with the same strands are equal. -/
theorem eq_of_strands {f g : Formula} (hf : f.IsNormal s.rules) (hg : g.IsNormal s.rules)
    (hfvalid : f.IsValid) (hgvalid : g.IsValid)
    (hstrands : ∀ x, x ∈ strands s k f ↔ x ∈ strands s k g) : f = g := by
  induction hsize : f.size using Nat.strongRecOn generalizing f g with
  | ind n ih =>
      have hneutral : f = const k.neutral ↔ g = const k.neutral := by
        constructor
        · rintro rfl
          exact eq_neutral_of_strands_subset hs hg hgvalid fun x => (hstrands x).mpr
        · rintro rfl
          exact eq_neutral_of_strands_subset hs hf hfvalid fun x => (hstrands x).mp
      by_cases hne : f = const k.neutral
      · rw [hne, hneutral.mp hne]
      · have hbodies : ∀ {body? : Formula → Option Formula} {wrap : Formula → Formula},
            s.Gathers k body? wrap → ∀ {b b' : Formula}, wrap b ∈ f.operandsUnder k →
              wrap b' ∈ g.operandsUnder k → b = b' := by
          intro body? wrap h b b' hb hb'
          have hchild := h.distributes.mem_children b
          have hchild' := h.distributes.mem_children b'
          have hlt := size_lt_of_mem_children hchild
          have hle := size_le_of_mem_operandsUnder hb
          refine ih b.size (by omega) ((hf.operandsUnder hb).children b hchild)
            ((hg.operandsUnder hb').children b' hchild')
            ((hfvalid.operandsUnder hb).2.children hchild)
            ((hgvalid.operandsUnder hb').2.children hchild') ?_ rfl
          intro x
          rw [mem_strands_body_iff h hf hfvalid hb, mem_strands_body_iff h hg hgvalid hb', hstrands]
        have hfg : f.operandsUnder k ⊆ g.operandsUnder k :=
          operandsUnder_subset_of_strands hs hf hfvalid hgvalid hne
            (fun x => (hstrands x).mp) hbodies
        have hgf : g.operandsUnder k ⊆ f.operandsUnder k :=
          operandsUnder_subset_of_strands hs hg hgvalid hfvalid (fun h => hne (hneutral.mpr h))
            (fun x => (hstrands x).mpr) fun h _ _ hb hb' => (hbodies h hb' hb).symm
        calc f = join k [f] := (join_singleton k hfvalid).symm
          _ = join k [g] := by
            apply join_congr
            intro c
            simp only [List.mem_singleton, exists_eq_left]
            exact ⟨fun hc => hfg hc, fun hc => hgf hc⟩
          _ = g := join_singleton k hgvalid

end

end Formula.IsNormal

/-!
## Opposed strands

No complement of a normal formula has an operator that is gathered at its root.  Hence a
normal formula with opposed strands is the constant that they come to.
-/

namespace Formula

/-- Two strands that decide a junction: below the same operators there is the absorbing
constant, or a formula and its complement. -/
inductive Opposed (s : Strategy) (k : Connective) : Formula → Formula → Prop where
  | absorbing : Opposed s k (const k.absorbing) (const k.absorbing)
  | complement {x y : Formula} : x.complement? = some y → Opposed s k x y
  | wrapped {body? : Formula → Option Formula} {wrap : Formula → Formula} {x y : Formula} :
      s.Gathers k body? wrap → Opposed s k x y → Opposed s k (wrap x) (wrap y)

def IsDecided (s : Strategy) (k : Connective) (f : Formula) : Prop :=
  ∃ x ∈ strands s k f, ∃ y ∈ strands s k f, Opposed s k x y

variable {s : Strategy} {k : Connective} {body? : Formula → Option Formula}
  {wrap : Formula → Formula}

theorem IsDecided.mono {f g : Formula} (h : f.IsDecided s k)
    (hsub : ∀ x ∈ strands s k f, x ∈ strands s k g) : g.IsDecided s k := by
  rcases h with ⟨x, hx, y, hy, hopposed⟩
  exact ⟨x, hsub x hx, y, hsub y hy, hopposed⟩

theorem body?_eq_none_of_complement? {f g : Formula} (h : Rule.Distributes k body? wrap)
    (hcomplement : f.complement? = some g) : body? f = none := by
  cases h <;> cases f <;> first | rfl | cases hcomplement

theorem Opposed.of_wrap (h : s.Gathers k body? wrap) {x y : Formula}
    (hopposed : Opposed s k (wrap x) (wrap y)) : Opposed s k x y := by
  generalize hx : wrap x = x' at hopposed
  generalize hy : wrap y = y' at hopposed
  cases hopposed with
  | absorbing => cases h.distributes <;> cases hx
  | complement hcomplement =>
      have hnone := body?_eq_none_of_complement? h.distributes hcomplement
      rw [h.distributes.eq_some_iff.mpr hx.symm] at hnone
      cases hnone
  | wrapped h' hopposed =>
      rcases h.distributes.wrap_inj h'.distributes hx with ⟨rfl, rfl⟩
      rw [(h.distributes.wrap_inj h.distributes hy).2]
      exact hopposed

theorem complement?_ne_self (f : Formula) : f.complement? ≠ some f := by
  cases f with
  | const value => cases value <;> simp [complement?]
  | literal name negated => cases negated <;> simp [complement?]
  | atom left op right => cases op <;> simp [complement?, Comparison.negate]
  | not body =>
      intro h
      have hsize := congrArg size (Option.some.inj h)
      simp only [size] at hsize
      omega
  | _ => simp [complement?]

theorem IsLeaf.eq_absorbing_of_opposed {f g : Formula} (hleaf : IsLeaf s k f)
    (hopposed : Opposed s k f g) (heq : f = g) : f = const k.absorbing := by
  cases hopposed with
  | absorbing => rfl
  | complement hcomplement =>
      rw [← heq] at hcomplement
      exact absurd hcomplement (complement?_ne_self f)
  | wrapped h =>
      have hnone := hleaf.ungathered h
      rw [h.distributes.eq_some_iff.mpr rfl] at hnone
      cases hnone

theorem ungathered_complement (h : s.Gathers k body? wrap) {f g : Formula}
    (hnormal : f.IsNormal s.rules) (hvalid : f.IsValid) (hcomplement : f.complement? = some g) :
    body? g = none := by
  rcases h with ⟨rfl, hdistributes⟩
  have hnegation := hnormal.isNegationNormal (Or.inl rfl) hvalid
  cases f with
  | not body => exact absurd rfl (hnegation.ne_not body)
  | const | literal | atom =>
      cases hcomplement
      cases hdistributes <;> rfl
  | _ => cases hcomplement

theorem IsNormal.eq_absorbing_of_opposed (hs : s = .propositional ∨ s = .modal) {n : Formula}
    (hnormal : n.IsNormal s.rules) (hvalid : n.IsValid) {x y : Formula}
    (hx : x ∈ strands s k n) (hy : y ∈ strands s k n) (hopposed : Opposed s k x y) :
    n = const k.absorbing := by
  have hs' := Strategy.ne_pullNext hs
  induction n using induction_on_children generalizing x y with
  | step n ih =>
      cases strandShape s k n with
      | neutral =>
          rw [strands_neutral] at hx
          cases hx
      | @gathered body? wrap h body =>
          rw [strands_wrap h] at hx hy
          rcases List.mem_map.mp hx with ⟨x', hx', rfl⟩
          rcases List.mem_map.mp hy with ⟨y', hy', rfl⟩
          have hchild := h.distributes.mem_children body
          have hinvariant := hnormal.not_isSuffixInvariant h (hvalid.children hchild)
          rw [ih body hchild (hnormal.children body hchild) (hvalid.children hchild) hx' hy'
            (hopposed.of_wrap h)] at hinvariant
          cases hinvariant
      | leaf hleaf =>
          rw [hleaf.strands] at hx hy
          rw [List.mem_singleton.mp hx, List.mem_singleton.mp hy] at hopposed
          exact hleaf.eq_absorbing_of_opposed hopposed rfl
      | junction fs =>
          rcases mem_strands_junction.mp hx with ⟨f, hf, hxf⟩
          rcases mem_strands_junction.mp hy with ⟨g, hg, hyg⟩
          have hfk := ((isValid_junction.mp hvalid).2.2 f hf).1
          have hgk := ((isValid_junction.mp hvalid).2.2 g hg).1
          have hsame : f = g → False := by
            rintro rfl
            have hconst := ih f hf (hnormal.children f hf) (hvalid.children hf) hxf hyg hopposed
            rw [hconst] at hf
            exact hnormal.const_not_mem hs' hvalid _ hf
          cases hopposed with
          | absorbing =>
              have hconst := ih f hf (hnormal.children f hf) (hvalid.children hf) hxf hxf
                Opposed.absorbing
              rw [hconst] at hf
              exact absurd hf (hnormal.const_not_mem hs' hvalid _)
          | complement hcomplement =>
              have hxeq := eq_of_mem_strands hfk hxf fun h =>
                body?_eq_none_of_complement? h.distributes hcomplement
              rw [hxeq] at hcomplement
              have hyeq := eq_of_mem_strands hgk hyg fun h =>
                ungathered_complement h (hnormal.children f hf) (hvalid.children hf) hcomplement
              rw [hyeq] at hcomplement
              exact absurd hcomplement (hnormal.complement_not_mem hs' hvalid hf hg)
          | wrapped h hopposed =>
              rcases eq_wrap_of_mem_strands h hfk hxf with ⟨body, rfl, _⟩
              rcases eq_wrap_of_mem_strands h hgk hyg with ⟨body', rfl, _⟩
              have hbody := body_unique h hnormal hvalid (mem_operandsUnder_junction.mpr hf)
                (mem_operandsUnder_junction.mpr hg)
              exact absurd (congrArg _ hbody) hsame

/-!
## What stays normal below an operator

A formula all of whose strands are below one operator has that operator at its root.  A
normal formula stays normal below an operator if it has the strands of another that
does, since fewer strands leave a formula suffix-invariant.
-/

theorem exists_ne_mem {fs : List Formula} (hvalid : (junction k fs).IsValid) (f : Formula) :
    ∃ g ∈ fs, g ≠ f := by
  rcases isValid_junction.mp hvalid with ⟨hlength, hascending, _⟩
  match fs with
  | [] | [_] => simp at hlength
  | g :: h :: fs =>
      have hlt : compare g h = .lt := List.rel_of_pairwise_cons hascending List.mem_cons_self
      by_cases hg : g = f
      · refine ⟨h, by simp, ?_⟩
        rintro rfl
        rw [hg, Std.LawfulEqOrd.compare_eq_iff_eq.mpr rfl] at hlt
        cases hlt
      · exact ⟨g, List.mem_cons_self, hg⟩

theorem isSuffixInvariant_wrap (h : s.Gathers k body? wrap) {body : Formula}
    (hbody : body.isSuffixInvariant = true) : (wrap body).isSuffixInvariant = true := by
  cases h.distributes <;> simp [isSuffixInvariant, hbody]

theorem isSuffixInvariant_body (h : s.Gathers k body? wrap) {body : Formula}
    (hwrap : (wrap body).isSuffixInvariant = true) :
    body.isSuffixInvariant = true ∨ strands s k body = [body] := by
  cases h.distributes with
  | next => exact Or.inl hwrap
  | always =>
      rcases (Bool.or_eq_true _ _).mp hwrap with heventually | hbody
      · rcases eq_eventually_of_isEventually heventually with ⟨body, rfl⟩
        exact Or.inr (if_neg (by simp))
      · exact Or.inl hbody
  | eventually =>
      rcases (Bool.or_eq_true _ _).mp hwrap with halways | hbody
      · rcases eq_always_of_isAlways halways with ⟨body, rfl⟩
        exact Or.inr (if_neg (by simp))
      · exact Or.inl hbody

theorem isSuffixInvariant_of_mem_strands {f x : Formula} (hf : f.isSuffixInvariant = true)
    (hx : x ∈ strands s k f) : x.isSuffixInvariant = true := by
  induction f using induction_on_children generalizing x with
  | step f ih =>
      cases strandShape s k f with
      | neutral =>
          rw [strands_neutral] at hx
          cases hx
      | junction fs =>
          rcases mem_strands_junction.mp hx with ⟨g, hg, hxg⟩
          exact ih g hg (areSuffixInvariant_iff.mp hf g hg) hxg
      | @gathered body? wrap h body =>
          rw [strands_wrap h] at hx
          rcases List.mem_map.mp hx with ⟨y, hy, rfl⟩
          rcases isSuffixInvariant_body h hf with hbody | hself
          · exact isSuffixInvariant_wrap h (ih body (h.distributes.mem_children body) hbody hy)
          · rw [hself] at hy
            rw [List.mem_singleton.mp hy]
            exact hf
      | leaf hleaf =>
          rw [hleaf.strands] at hx
          rw [List.mem_singleton.mp hx]
          exact hf

theorem isSuffixInvariant_of_mem_operandsUnder {f g : Formula} (hf : f.isSuffixInvariant = true)
    (hg : g ∈ f.operandsUnder k) : g.isSuffixInvariant = true := by
  cases hk : f.isJunction k with
  | true =>
      rw [eq_junction_of_isJunction hk] at hf
      exact areSuffixInvariant_iff.mp hf g hg
  | false =>
      rw [operandsUnder_of_isJunction_eq_false hk] at hg
      rw [List.mem_singleton.mp hg]
      exact hf

namespace IsNormal

variable (hs : s ≠ .pullNext)

include hs

theorem isSuffixInvariant_of_strands {b n : Formula} (hb : b.IsNormal s.rules)
    (hbvalid : b.IsValid) (hn : n.IsNormal s.rules) (hnvalid : n.IsValid)
    (hsub : ∀ x ∈ strands s k b, x ∈ strands s k n) (hinvariant : n.isSuffixInvariant = true) :
    b.isSuffixInvariant = true := by
  induction b using induction_on_children generalizing n with
  | step b ih =>
      cases strandShape s k b with
      | neutral => rfl
      | junction fs =>
          apply areSuffixInvariant_iff.mpr
          intro f hf
          exact ih f hf (hb.children f hf) (hbvalid.children hf) hn hnvalid
            (fun x hx => hsub x (mem_strands_junction.mpr ⟨f, hf, hx⟩)) hinvariant
      | @gathered body? wrap h body =>
          have hchild := h.distributes.mem_children body
          have hbody := hbvalid.children hchild
          rcases exists_strand hs h hb hbody with ⟨x, hx⟩
          have hwrap : ∀ y ∈ strands s k body, wrap y ∈ strands s k n := by
            intro y hy
            apply hsub
            rw [strands_wrap h]
            exact List.mem_map_of_mem hy
          rcases mem_strands_operandsUnder.mp (hwrap x hx) with ⟨g, hg, hxg⟩
          rcases eq_wrap_of_mem_strands h (hnvalid.operandsUnder hg).1 hxg with ⟨m, rfl, _⟩
          have hm : m.IsNormal s.rules :=
            (hn.operandsUnder hg).children m (h.distributes.mem_children m)
          have hmvalid : m.IsValid :=
            (hnvalid.operandsUnder hg).2.children (h.distributes.mem_children m)
          have hmsub : ∀ y ∈ strands s k body, y ∈ strands s k m :=
            fun y hy => (mem_strands_body_iff h hn hnvalid hg).mpr (hwrap y hy)
          have hminvariant := isSuffixInvariant_of_mem_operandsUnder hinvariant hg
          rcases isSuffixInvariant_body h hminvariant with hmbody | hself
          · exact isSuffixInvariant_wrap h
              (ih body hchild (hb.children body hchild) hbody hm hmvalid hmsub hmbody)
          · -- With one strand only, the two bodies are the same.
            rw [hself] at hmsub
            have hbodym : body = m := by
              refine eq_of_strands hs (hb.children body hchild) hm hbody hmvalid (k := k) ?_
              intro y
              rw [hself]
              refine ⟨hmsub y, ?_⟩
              intro hy
              rw [List.mem_singleton.mp hy, ← List.mem_singleton.mp (hmsub x hx)]
              exact hx
            rw [hbodym]
            exact hminvariant
      | leaf hleaf =>
          apply isSuffixInvariant_of_mem_strands hinvariant
          apply hsub
          rw [hleaf.strands]
          exact List.mem_singleton_self b

theorem eq_wrap_of_strands (h : s.Gathers k body? wrap) {n : Formula} (hn : n.IsNormal s.rules)
    (hnvalid : n.IsValid) (hstrands : ∀ x ∈ strands s k n, ∃ y, x = wrap y) :
    n = const k.neutral ∨ ∃ body, n = wrap body := by
  cases strandShape s k n with
  | neutral => exact Or.inl rfl
  | junction fs =>
      have hoperand : ∀ f ∈ fs, ∃ body, f = wrap body := by
        intro f hf
        have hne : strands s k f ≠ [] := by
          intro hnil
          have hneutral := eq_neutral_of_strands_eq_nil hs (hn.children f hf)
            (hnvalid.children hf) hnil
          rw [hneutral] at hf
          exact hn.const_not_mem hs hnvalid _ hf
        rcases List.exists_mem_of_ne_nil _ hne with ⟨x, hx⟩
        rcases hstrands x (mem_strands_junction.mpr ⟨f, hf, hx⟩) with ⟨y, rfl⟩
        rcases eq_wrap_of_mem_strands h ((isValid_junction.mp hnvalid).2.2 f hf).1 hx
          with ⟨body, hbody, _⟩
        exact ⟨body, hbody⟩
      -- Two such operands would have been merged.
      rcases exists_ne_mem hnvalid (const true) with ⟨f, hf, _⟩
      rcases exists_ne_mem hnvalid f with ⟨g, hg, hne⟩
      rcases hoperand f hf with ⟨body, rfl⟩
      rcases hoperand g hg with ⟨body', rfl⟩
      exact absurd (congrArg wrap (body_unique h hn hnvalid
        (mem_operandsUnder_junction.mpr hg) (mem_operandsUnder_junction.mpr hf))) hne
  | @gathered body?' wrap' h' body =>
      rcases exists_strand hs h' hn (hnvalid.children (h'.distributes.mem_children body))
        with ⟨x, hx⟩
      have hmem : wrap' x ∈ strands s k (wrap' body) := by
        rw [strands_wrap h']
        exact List.mem_map_of_mem hx
      rcases hstrands _ hmem with ⟨y, hy⟩
      rw [(h'.distributes.wrap_inj h.distributes hy).1]
      exact Or.inr ⟨body, rfl⟩
  | leaf hleaf =>
      rw [hleaf.strands] at hstrands
      exact Or.inr (hstrands n (List.mem_singleton_self n))

omit hs in
theorem isNormal_wrap (h : s.Gathers k body? wrap) {b n : Formula}
    (hb : (wrap b).IsNormal s.rules) (hbvalid : b.IsValid) (hn : n.IsNormal s.rules)
    (hnvalid : n.IsValid) (hsub : ∀ x ∈ strands s k b, x ∈ strands s k n) :
    (wrap n).IsNormal s.rules := by
  have hs := h.ne_pullNext
  have hbnormal : b.IsNormal s.rules := hb.children b (h.distributes.mem_children b)
  have hbinvariant := hb.not_isSuffixInvariant h hbvalid
  apply IsNormal.of_children
  · intro rule hrule
    cases happly : rule.apply (wrap n) with
    | none => rfl
    | some g =>
        exfalso
        rcases h.invariant_or_idempotent hrule (Rule.transform_of_apply happly)
          with hninvariant | ⟨m, rfl, hidempotent⟩
        · have hb' := isSuffixInvariant_of_strands hs hbnormal hbvalid hn hnvalid hsub hninvariant
          rw [hbinvariant] at hb'
          cases hb'
        · have hstrands : ∀ x ∈ strands s k b, ∃ y, x = wrap y := by
            intro x hx
            have hx' := hsub x hx
            rw [strands_wrap h] at hx'
            rcases List.mem_map.mp hx' with ⟨y, _, hy⟩
            exact ⟨y, hy.symm⟩
          rcases eq_wrap_of_strands hs h hbnormal hbvalid hstrands with rfl | ⟨c, rfl⟩
          · cases hbinvariant
          · exact hb.not_isRedex (h.distributes.isValid_iff.mpr hbvalid) (hidempotent c)
  · intro g hg
    rw [h.distributes.children_wrap, List.mem_singleton] at hg
    rw [hg]
    exact hn

end IsNormal

end Formula

end LinearTemporal

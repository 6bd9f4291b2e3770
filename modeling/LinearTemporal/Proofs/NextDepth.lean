import LinearTemporal.Proofs.PassLimit

/-!
# How far `next` floats

The number of `next` that can be moved to the root of a formula is known beforehand: an
operator lets through as many as all of its operands have.  Every firing of the law that moves
`next` keeps this number, and so do joining, dropping of equal operands and flattening.
In a normal formula no operator has `next` above all of its operands any more, so there
the whole number stands at the root.
-/

namespace LinearTemporal
namespace Formula

/-!
## The number of `next` that can be moved

Over a list it is the least number, and zero for no formulas.  A junction counts in
another one as its operands do, so neither flattening nor dropping repetitions nor
collapsing changes it.
-/

mutual

/-- How many `next` can be moved to the root. -/
def floatable : Formula → Nat
  | not body => body.floatable
  | next body => body.floatable + 1
  | always body => body.floatable
  | eventually body => body.floatable
  | untl left right => min left.floatable right.floatable
  | release left right => min left.floatable right.floatable
  | junction _ operands => floatableAll operands
  | _ => 0

def floatableAll : List Formula → Nat
  | [] => 0
  | [f] => f.floatable
  | f :: g :: fs => min f.floatable (floatableAll (g :: fs))

end

theorem le_floatableAll_iff {fs : List Formula} (hne : fs ≠ []) {n : Nat} :
    n ≤ floatableAll fs ↔ ∀ f ∈ fs, n ≤ f.floatable := by
  induction fs with
  | nil => exact absurd rfl hne
  | cons f fs ih =>
      cases fs with
      | nil => simp [floatableAll]
      | cons g fs =>
          rw [floatableAll, Nat.le_min, ih (List.cons_ne_nil g fs), List.forall_mem_cons (a := f)]

theorem le_floatable_iff_operandsUnder {k : Connective} {f : Formula} (hf : f.IsValid) {n : Nat} :
    n ≤ f.floatable ↔ ∀ g ∈ f.operandsUnder k, n ≤ g.floatable := by
  cases hk : f.isJunction k with
  | true =>
      have hjunction := eq_junction_of_isJunction hk
      rw [hjunction] at hf
      conv_lhs => rw [hjunction]
      exact le_floatableAll_iff hf.operands_ne_nil
  | false =>
      rw [operandsUnder_of_isJunction_eq_false hk, List.forall_mem_singleton]

theorem le_floatable_join_iff {k : Connective} {fs : List Formula} (hne : fs ≠ [])
    (hvalid : ∀ f ∈ fs, f.IsValid) {n : Nat} :
    n ≤ (join k fs).floatable ↔ ∀ f ∈ fs, n ≤ f.floatable := by
  have hoperands : (∀ g ∈ joinOperands k fs, n ≤ g.floatable) ↔ ∀ f ∈ fs, n ≤ f.floatable := by
    constructor
    · intro h f hf
      rw [le_floatable_iff_operandsUnder (k := k) (hvalid f hf)]
      intro g hg
      exact h g (mem_joinOperands.mpr ⟨f, hf, hg⟩)
    · intro h g hg
      rcases mem_joinOperands.mp hg with ⟨f, hf, hgf⟩
      exact (le_floatable_iff_operandsUnder (hvalid f hf)).mp (h f hf) g hgf
  rw [← hoperands, join_eq_collapse]
  match hshape : joinOperands k fs with
  | [] => exact absurd hshape (joinOperands_ne_nil hne hvalid)
  | [g] => rw [List.forall_mem_singleton, collapse]
  | g :: h :: gs => exact le_floatableAll_iff (List.cons_ne_nil _ _)

theorem isCongruence_floatable :
    IsCongruence (fun f g => f.IsValid → g.IsValid ∧ g.floatable = f.floatable) := by
  refine isCongruence_ofValid (fun _ => rfl) ?_ ?_ ?_
  · intro op f g hop _ _ h
    cases hop with
    | next => exact congrArg Nat.succ h
    | not | always | eventually => exact h
  · intro op f f' g g' hop _ _ h h'
    cases hop with
    | untl | release => rw [floatable, floatable, h, h']
  · intro k fs change hjunction hvalid hchange
    have hne := hjunction.operands_ne_nil
    have hmapped : ∀ g ∈ fs.map change, g.IsValid := List.forall_mem_map.mpr hvalid
    apply eq_of_forall_le_iff
    intro n
    rw [le_floatable_join_iff (mt List.map_eq_nil_iff.mp hne) hmapped, List.forall_mem_map]
    calc (∀ f ∈ fs, n ≤ (change f).floatable)
        ↔ ∀ f ∈ fs, n ≤ f.floatable := forall₂_congr fun f hf => by rw [hchange f hf]
      _ ↔ n ≤ (junction k fs).floatable := (le_floatableAll_iff hne).symm

end Formula

/-!
## Moving `next` keeps the number

It is lost below the operator and won above it.
-/

open Formula

namespace Rule

theorem NextStep.floatable_eq {f g : Formula} (h : NextStep f g) (hf : f.IsValid) :
    g.floatable = f.floatable := by
  cases h with
  | not | always | eventually => rfl
  | untl | release => exact (Nat.succ_min_succ _ _).symm
  | junction k bodies =>
      have hne : bodies ≠ [] := mt List.map_eq_nil_iff.mpr hf.operands_ne_nil
      have hvalid : ∀ body ∈ bodies, body.IsValid := by
        intro body hbody
        have hnext : body.next.IsValid := hf.of_mem (List.mem_map_of_mem hbody)
        exact hnext
      apply eq_of_forall_le_iff
      intro n
      calc n ≤ (join k bodies).floatable + 1
          ↔ n - 1 ≤ (join k bodies).floatable := Nat.sub_le_iff_le_add.symm
        _ ↔ ∀ body ∈ bodies, n - 1 ≤ body.floatable := le_floatable_join_iff hne hvalid
        _ ↔ ∀ body ∈ bodies, n ≤ body.next.floatable :=
            forall₂_congr fun body _ => Nat.sub_le_iff_le_add
        _ ↔ ∀ f ∈ bodies.map Formula.next, n ≤ f.floatable := by rw [List.forall_mem_map]
        _ ↔ n ≤ (Formula.junction k (bodies.map Formula.next)).floatable :=
            (le_floatableAll_iff hf.operands_ne_nil).symm

/-!
## Where there is `next` to be moved

An operator other than `next` itself lets `next` through if all operands start with it.
-/

theorem isSome_nextAll? {fs : List Formula} (h : ∀ f ∈ fs, ∃ body, f = .next body) :
    (nextAll? fs).isSome = true := by
  induction fs with
  | nil => rfl
  | cons f fs ih =>
      rw [List.forall_mem_cons] at h
      rcases h.1 with ⟨body, rfl⟩
      rcases Option.isSome_iff_exists.mp (ih h.2) with ⟨bodies, hbodies⟩
      simp [nextAll?, next?, hbodies]

theorem isRedex_of_next_children {f : Formula} (hparts : f.children ≠ [])
    (hnext : ∀ body, f ≠ .next body) (h : ∀ g ∈ f.children, ∃ body, g = .next body) :
    IsRedex nextFloating f := by
  refine ⟨_, List.mem_cons_self, ?_⟩
  cases f with
  | const | literal | atom => exact absurd rfl hparts
  | next body => exact absurd rfl (hnext body)
  | not body | always body | eventually body =>
      rcases h body List.mem_cons_self with ⟨_, rfl⟩
      rfl
  | untl left right | release left right =>
      rcases h left List.mem_cons_self with ⟨_, rfl⟩
      rcases h right (List.mem_cons_of_mem _ List.mem_cons_self) with ⟨_, rfl⟩
      rfl
  | junction k fs =>
      show ((nextAll? fs).map _).isSome = true
      rw [Option.isSome_map]
      exact isSome_nextAll? h

end Rule

/-!
## Normal formulas

What an operator lets through all of its operands have.  By induction they start with
it, and then the operator would let one more of them through.
-/

namespace Formula

theorem floatable_le_of_mem_children {f g : Formula} (hf : f.IsValid)
    (hnext : ∀ body, f ≠ next body) (hg : g ∈ f.children) : f.floatable ≤ g.floatable := by
  cases f with
  | const | literal | atom => cases hg
  | next body => exact absurd rfl (hnext body)
  | not body | always body | eventually body =>
      rcases List.mem_singleton.mp hg with rfl
      exact Nat.le_refl _
  | untl left right | release left right =>
      rcases List.mem_pair.mp hg with rfl | rfl
      · exact Nat.min_le_left _ _
      · exact Nat.min_le_right _ _
  | junction k fs => exact (le_floatableAll_iff hf.operands_ne_nil).mp (Nat.le_refl _) g hg

theorem children_ne_nil_of_floatable_pos {f : Formula} (h : 0 < f.floatable) :
    f.children ≠ [] := by
  cases f with
  | const | literal | atom => exact absurd h (Nat.lt_irrefl 0)
  | not | next | always | eventually | untl | release => exact List.cons_ne_nil _ _
  | junction k fs =>
      rintro hnil
      have hfs : fs = [] := hnil
      rw [hfs] at h
      exact Nat.lt_irrefl 0 h

theorem exists_next_of_floatable_pos {f g : Formula} (heq : f = nextN f.floatable g)
    (hpos : 0 < f.floatable) : ∃ body, f = next body := by
  rcases Nat.exists_eq_succ_of_ne_zero (Nat.ne_of_gt hpos) with ⟨n, hn⟩
  rw [hn] at heq
  exact ⟨nextN n g, heq⟩

theorem IsNormal.exists_nextN {f : Formula} (hnormal : f.IsNormal Strategy.pullNext.rules)
    (hf : f.IsValid) : ∃ g, (∀ body, g ≠ next body) ∧ f = nextN f.floatable g := by
  induction f using induction_on_children with
  | step f ih =>
      have hparts := fun g (hg : g ∈ f.children) => ih g hg (hnormal.children g hg) (hf.children hg)
      by_cases hnext : ∃ body, f = next body
      · rcases hnext with ⟨body, rfl⟩
        rcases hparts body List.mem_cons_self with ⟨g, hg, hbody⟩
        exact ⟨g, hg, congrArg next hbody⟩
      · have hroot : ∀ body, f ≠ next body := fun body heq => hnext ⟨body, heq⟩
        have hzero : f.floatable = 0 := by
          by_contra hne
          have hpos := Nat.pos_of_ne_zero hne
          -- All parts let `next` through, so by induction they start with it.
          have hall : ∀ g ∈ f.children, ∃ body, g = next body := by
            intro g hg
            rcases hparts g hg with ⟨_, _, heq⟩
            exact exists_next_of_floatable_pos heq
              (Nat.lt_of_lt_of_le hpos (floatable_le_of_mem_children hf hroot hg))
          exact hnormal.not_isRedex hf
            (Rule.isRedex_of_next_children (children_ne_nil_of_floatable_pos hpos) hroot hall)
        refine ⟨f, hroot, ?_⟩
        rw [hzero]
        rfl

end Formula

namespace Simplification

theorem respects_floatable : Respects Strategy.pullNext.rules
    (fun f g => f.IsValid → g.IsValid ∧ g.floatable = f.floatable) where
  congruence := isCongruence_floatable
  trans := by
    intro f g h hfg hgh hf
    rcases hfg hf with ⟨hg, heq⟩
    rcases hgh hg with ⟨hh, heq'⟩
    exact ⟨hh, heq'.trans heq⟩
  fire := by
    intro rule f g hrule happly hf
    have hstep := Rule.NextStep.of_mem hrule (Rule.transform_of_apply happly)
    exact ⟨hstep.isValid hf, hstep.floatable_eq hf⟩

end Simplification

namespace Simplifier

/-- The result of moving `next` starts with exactly as many as can be moved to the root. -/
theorem run_floats_next {maxPasses : Nat} (hpasses : 1 ≤ maxPasses) {f : Formula}
    (hf : f.IsValid) :
    ∃ g, (∀ body, g ≠ .next body) ∧
      (run ⟨.pullNext, maxPasses⟩ f).1 = nextN f.floatable g := by
  have hnormal := isNormal_run ⟨.pullNext, maxPasses⟩ hpasses hf
  rcases Simplification.respects_floatable.run (s := ⟨.pullNext, maxPasses⟩) f hf with
    ⟨hvalid, hfloatable⟩
  rcases IsNormal.exists_nextN hnormal hvalid with ⟨g, hg, heq⟩
  rw [hfloatable] at heq
  exact ⟨g, hg, heq⟩

theorem run_floats_next_untl :
    1 ≤ 64 ∧ (Formula.always (.untl (nextN 3 (.literal "p" false))
        (nextN 2 (.literal "q" false)))).IsValid ∧
      ∃ g, (∀ body, g ≠ .next body) ∧
        (run ⟨.pullNext, 64⟩ (.always (.untl (nextN 3 (.literal "p" false))
          (nextN 2 (.literal "q" false))))).1 = nextN 2 g := by
  have hf : (Formula.always (.untl (nextN 3 (.literal "p" false))
      (nextN 2 (.literal "q" false)))).IsValid := rfl
  exact ⟨by decide, hf, run_floats_next (by decide) hf⟩

end Simplifier

end LinearTemporal

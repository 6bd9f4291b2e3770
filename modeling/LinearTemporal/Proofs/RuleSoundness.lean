import LinearTemporal.Proofs.RuleStep
import LinearTemporal.Proofs.SuffixInvariance

/-!
# Rules keep the meaning

Every law of every group replaces a formula by an equivalent one, whatever the
shape of its junctions.  Laws about a junction are proved for both connectives at
once, in terms of what decides it.
-/

namespace LinearTemporal

theorem Comparison.holds_negate (op : Comparison) (left right : Int64) :
    op.negate.holds left right = true ↔ ¬ op.holds left right = true := by
  cases op with
  | leq => simp [negate, holds, Int64.not_le]
  | lt => simp [negate, holds, Int64.not_lt]
  | geq => simp [negate, holds, Int64.not_le]
  | gt => simp [negate, holds, Int64.not_lt]

namespace Formula

variable {word : Nat → State} {k : Connective} {i : Nat}

/-!
## Negation

A complement decides a junction exactly where the formula itself does not.
-/

theorem holds_complement? {f g : Formula} (h : f.complement? = some g) :
    g.Holds word i ↔ ¬ f.Holds word i := by
  cases f with
  | const value =>
      cases h
      rw [holds_const, holds_const]
      simp
  | literal name negated =>
      cases h
      rw [holds_literal, holds_literal]
      cases negated <;> simp
  | atom left op right =>
      cases h
      rw [holds_atom, holds_atom, Comparison.holds_negate]
  | not body =>
      cases h
      rw [holds_not]
      exact Classical.not_not.symm
  | _ => cases h

theorem holds_negated {f : Formula} : f.negated.Holds word i ↔ ¬ f.Holds word i := by
  unfold negated
  cases h : f.complement? with
  | none => exact holds_not
  | some g => exact holds_complement? h

theorem decides_complement? {f g : Formula} (h : f.complement? = some g) :
    g.Decides k word i ↔ ¬ f.Decides k word i := by
  cases k with
  | and => exact not_congr (holds_complement? h)
  | or => exact holds_complement? h

theorem decides_negated {f : Formula} :
    f.negated.Decides k word i ↔ ¬ f.Decides k word i := by
  cases k with
  | and => exact not_congr holds_negated
  | or => exact holds_negated

/-!
## Moving by one position

What is waited for one position later is waited for with all steps later by one.
-/

theorem untilFrom_succ {p q : Nat → Prop} :
    UntilFrom p q (i + 1) ↔ UntilFrom (fun j => p (j + 1)) (fun j => q (j + 1)) i := by
  have hnat : ∀ d, i + 1 + d = i + d + 1 := fun d => by omega
  exact untilFrom_congr (fun d => by rw [hnat d]) (fun d => by rw [hnat d])

end Formula

namespace Rule

open Formula

variable {word : Nat → State} {k : Connective} {i : Nat}

/-!
## Propositional laws

The absorbing constant decides, and so does one of a formula and its complement.
-/

theorem PropositionalStep.equivalent {f g : Formula} (h : PropositionalStep f g) :
    Equivalent f g := by
  cases h with
  | negatedConst value =>
      intro word i
      rw [holds_not, holds_const, holds_const]
      cases value <;> simp
  | @absorbing k fs hmem =>
      apply equivalent_of_decides k
      intro word i
      rw [decides_junction, decides_const]
      exact ⟨fun _ => rfl, fun _ => ⟨_, hmem, decides_const.mpr rfl⟩⟩
  | @neutral k fs habsorbing _ =>
      apply equivalent_of_decides k
      intro word i
      rw [decides_junction, decides_join]
      constructor
      · intro hexists
        rcases hexists with ⟨f, hf, hdecides⟩
        refine ⟨f, List.mem_filter.mpr ⟨hf, ?_⟩, hdecides⟩
        cases f with
        | const value =>
            rw [decides_const.mp hdecides] at hf
            exact absurd hf habsorbing
        | _ => rfl
      · intro hexists
        rcases hexists with ⟨f, hf, hdecides⟩
        exact ⟨f, (List.mem_filter.mp hf).1, hdecides⟩
  | doubleNegation body =>
      intro word i
      rw [holds_not, holds_not, Classical.not_not]
  | negatedLiteral name negated =>
      intro word i
      rw [holds_not]
      exact (holds_complement? rfl).symm
  | negatedAtom left op right =>
      intro word i
      rw [holds_not]
      exact (holds_complement? rfl).symm
  | @complementary k fs f g hf hg hcomplement =>
      apply equivalent_of_decides k
      intro word i
      rw [decides_junction, decides_const]
      refine ⟨fun _ => rfl, fun _ => ?_⟩
      by_cases hdecides : f.Decides k word i
      · exact ⟨f, hf, hdecides⟩
      · exact ⟨g, hg, (decides_complement? hcomplement).mpr hdecides⟩

/-!
## Modal laws

An operator that distributes over a connective asks whether its body decides at one of
the positions that it reaches.  An operator over a formula that keeps holding adds
nothing, and waiting under a condition that already fulfils it is not waiting at all.
-/

theorem Distributes.exists_reach {body? : Formula → Option Formula} {wrap : Formula → Formula}
    (h : Distributes k body? wrap) :
    ∃ reach : Nat → Nat → Prop, ∀ word i f,
      (wrap f).Decides k word i ↔ ∃ j, reach i j ∧ f.Decides k word j := by
  cases h with
  | always =>
      refine ⟨fun i j => i ≤ j, ?_⟩
      intro word i f
      show ¬ (Formula.always f).Holds word i ↔ ∃ j, i ≤ j ∧ ¬ f.Holds word j
      rw [holds_always]
      simp
  | eventually =>
      refine ⟨fun i j => i ≤ j, ?_⟩
      intro word i f
      exact holds_eventually
  | next k =>
      refine ⟨fun i j => j = i + 1, ?_⟩
      intro word i f
      rw [decides_next]
      simp

theorem equivalent_always {body : Formula}
    (h : ∀ word i j, i ≤ j → body.Holds word i → body.Holds word j) :
    Equivalent (.always body) body := by
  intro word i
  rw [holds_always]
  constructor
  · intro hall
    exact hall i (Nat.le_refl i)
  · intro hbody j hij
    exact h word i j hij hbody

theorem equivalent_eventually {body : Formula}
    (h : ∀ word i j, i ≤ j → body.Holds word j → body.Holds word i) :
    Equivalent (.eventually body) body := by
  intro word i
  rw [holds_eventually]
  constructor
  · intro hexists
    rcases hexists with ⟨j, hij, hbody⟩
    exact h word i j hij hbody
  · intro hbody
    exact ⟨i, Nat.le_refl i, hbody⟩

theorem equivalent_untl {left right : Formula}
    (h : ∀ word i, left.Holds word i → right.Holds word i) :
    Equivalent (.untl left right) right := by
  intro word i
  rw [holds_untl_iff_untilFrom, untilFrom_iff]
  constructor
  · intro hcases
    rcases hcases with hright | ⟨hleft, _⟩
    · exact hright
    · exact h word i hleft
  · exact Or.inl

theorem equivalent_release {left right : Formula}
    (h : ∀ word i, right.Holds word i → left.Holds word i) :
    Equivalent (.release left right) right := by
  intro word i
  rw [holds_release_iff_untilFrom, untilFrom_iff]
  constructor
  · intro hrelease
    apply Classical.byContradiction
    intro hnot
    exact hrelease (Or.inl hnot)
  · intro hright hcases
    rcases hcases with hnot | ⟨hnot, _⟩
    · exact hnot hright
    · exact hnot (h word i hright)

theorem equivalent_untl_const (left : Formula) (value : Bool) :
    Equivalent (.untl left (.const value)) (.const value) := by
  intro word i
  rw [holds_untl_iff_untilFrom]
  constructor
  · intro hexists
    rcases hexists with ⟨d, hright, _⟩
    exact hright
  · intro h
    exact ⟨0, h, fun e he => absurd he (Nat.not_lt_zero e)⟩

theorem equivalent_release_const (left : Formula) (value : Bool) :
    Equivalent (.release left (.const value)) (.const value) := by
  intro word i
  rw [holds_release]
  constructor
  · intro h
    rcases h i (Nat.le_refl i) with hright | ⟨j, hij, hji, _⟩
    · exact hright
    · exact absurd hji (Nat.not_lt.mpr hij)
  · intro h l _
    exact Or.inl h

theorem equivalent_not_junction (k : Connective) (fs : List Formula) :
    Equivalent (.not (.junction k fs)) (join k.dual (fs.map Formula.negated)) := by
  apply equivalent_of_decides k.dual
  intro word i
  rw [decides_not, decides_dual, Classical.not_not, decides_junction, decides_join]
  constructor
  · intro hexists
    rcases hexists with ⟨f, hf, hdecides⟩
    refine ⟨f.negated, List.mem_map_of_mem hf, ?_⟩
    rw [decides_dual, decides_negated, Classical.not_not]
    exact hdecides
  · intro hexists
    rcases hexists with ⟨g, hg, hdecides⟩
    rcases List.mem_map.mp hg with ⟨f, hf, rfl⟩
    rw [decides_dual, decides_negated, Classical.not_not] at hdecides
    exact ⟨f, hf, hdecides⟩

theorem equivalent_merge {body? : Formula → Option Formula} {wrap : Formula → Formula}
    (hwrap : Distributes k body? wrap) (fs : List Formula) :
    Equivalent (.junction k fs)
      (join k (fs.filter (fun f => (body? f).isNone) ++ [wrap (join k (fs.filterMap body?))])) := by
  rcases hwrap.exists_reach with ⟨reach, hreach⟩
  apply equivalent_of_decides k
  intro word i
  rw [decides_junction, decides_join]
  constructor
  · intro hexists
    rcases hexists with ⟨f, hf, hdecides⟩
    cases hbody : body? f with
    | none =>
        refine ⟨f, List.mem_append_left _ (List.mem_filter.mpr ⟨hf, ?_⟩), hdecides⟩
        rw [hbody]
        rfl
    | some body =>
        rw [hwrap.eq_some_iff.mp hbody] at hdecides
        rcases (hreach word i body).mp hdecides with ⟨j, hij, hj⟩
        refine ⟨_, List.mem_append_right _ (List.mem_singleton.mpr rfl), ?_⟩
        apply (hreach word i _).mpr
        exact ⟨j, hij, decides_join.mpr ⟨body, List.mem_filterMap.mpr ⟨f, hf, hbody⟩, hj⟩⟩
  · intro hexists
    rcases hexists with ⟨f, hf, hdecides⟩
    rcases List.mem_append.mp hf with hrest | hmerged
    · exact ⟨f, (List.mem_filter.mp hrest).1, hdecides⟩
    · cases List.mem_singleton.mp hmerged
      rcases (hreach word i _).mp hdecides with ⟨j, hij, hj⟩
      rcases decides_join.mp hj with ⟨body, hbody, hbodyj⟩
      rcases List.mem_filterMap.mp hbody with ⟨f, hf, hfbody⟩
      rw [hwrap.eq_some_iff.mp hfbody] at hf
      exact ⟨_, hf, (hreach word i body).mpr ⟨j, hij, hbodyj⟩⟩

theorem ModalStep.equivalent {f g : Formula} (h : ModalStep f g) : Equivalent f g := by
  cases h with
  | pushJunction k fs => exact equivalent_not_junction k fs
  | pushNext body =>
      intro word i
      rw [holds_not, holds_next, holds_next, holds_negated]
  | pushAlways body =>
      intro word i
      rw [holds_not, holds_always_iff_untilFrom, holds_eventually_iff_untilFrom,
        Classical.not_not]
      exact untilFrom_congr (fun _ => Iff.rfl) (fun d => holds_negated.symm)
  | pushEventually body =>
      intro word i
      rw [holds_not, holds_always_iff_untilFrom, holds_eventually_iff_untilFrom]
      apply not_congr
      apply untilFrom_congr (fun _ => Iff.rfl)
      intro d
      rw [holds_negated, Classical.not_not]
  | pushUntl left right =>
      intro word i
      rw [holds_not, holds_untl_iff_untilFrom, holds_release_iff_untilFrom]
      apply not_congr
      apply untilFrom_congr
      · intro d
        rw [holds_negated, Classical.not_not]
      · intro d
        rw [holds_negated, Classical.not_not]
  | pushRelease left right =>
      intro word i
      rw [holds_not, holds_untl_iff_untilFrom, holds_release_iff_untilFrom, Classical.not_not]
      exact untilFrom_congr (fun d => holds_negated.symm) (fun d => holds_negated.symm)
  | nextConst value =>
      intro word i
      rw [holds_next, holds_const, holds_const]
  | alwaysConst value => exact equivalent_always fun _ _ _ _ => id
  | eventuallyConst value => exact equivalent_eventually fun _ _ _ _ => id
  | untlConst left value => exact equivalent_untl_const left value
  | untlFalse right =>
      apply equivalent_untl
      intro word i hfalse
      cases holds_const.mp hfalse
  | untlTrue right =>
      intro word i
      rw [holds_untl_iff_untilFrom, holds_eventually_iff_untilFrom]
      exact untilFrom_congr (fun _ => by simp) (fun _ => Iff.rfl)
  | releaseConst left value => exact equivalent_release_const left value
  | releaseTrue right => exact equivalent_release fun _ _ _ => holds_const.mpr rfl
  | releaseFalse right =>
      intro word i
      rw [holds_release_iff_untilFrom, holds_always_iff_untilFrom]
      exact not_congr (untilFrom_congr (fun _ => by simp) (fun _ => Iff.rfl))
  | nextInvariant hinvariant => exact equivalent_next_of_isSuffixInvariant hinvariant
  | alwaysInvariant hinvariant => exact equivalent_always_of_isSuffixInvariant hinvariant
  | eventuallyInvariant hinvariant => exact equivalent_eventually_of_isSuffixInvariant hinvariant
  | alwaysAlways body =>
      apply equivalent_always
      intro word i j hij hbody
      rw [holds_always] at hbody ⊢
      intro l hjl
      exact hbody l (Nat.le_trans hij hjl)
  | eventuallyEventually body =>
      apply equivalent_eventually
      intro word i j hij hbody
      rcases holds_eventually.mp hbody with ⟨l, hjl, hl⟩
      exact holds_eventually.mpr ⟨l, Nat.le_trans hij hjl, hl⟩
  | untlSame f => exact equivalent_untl fun _ _ => id
  | releaseSame f => exact equivalent_release fun _ _ => id
  | merge hwrap _ => exact equivalent_merge hwrap _

/-!
## Subsumption laws

An operand may be replaced by what decides alike where the others leave the junction
open.  There, what a formula keeps beside its siblings decides as the formula itself
does, and a nested junction of the dual kind decides if all its operands do.
-/

theorem decides_of_makesRedundant {f g : Formula} (h : makesRedundant k g f = true)
    (hf : f.Decides k word i) : g.Decides k word i := by
  cases k with
  | and => exact fun hg => hf (holds_of_implies h hg)
  | or => exact holds_of_implies h hf

theorem exists_decides_remaining {siblings : List Formula} {f : Formula}
    (hopen : ∀ s ∈ siblings, ¬ s.Decides k word i) :
    (∃ g ∈ remaining k siblings f, g.Decides k word i) ↔ f.Decides k word i := by
  rw [← exists_decides_operandsUnder (k := k) (f := f)]
  constructor
  · intro hexists
    rcases hexists with ⟨g, hg, hdecides⟩
    exact ⟨g, (List.mem_filter.mp hg).1, hdecides⟩
  · intro hexists
    rcases hexists with ⟨g, hg, hdecides⟩
    refine ⟨g, List.mem_filter.mpr ⟨hg, ?_⟩, hdecides⟩
    rw [Bool.not_eq_true', List.any_eq_false]
    intro s hs hredundant
    exact hopen s hs (decides_of_makesRedundant hredundant hdecides)

theorem Trimmed.decides {siblings : List Formula} {f f' : Formula}
    (h : Trimmed k siblings f f') (hopen : ∀ s ∈ siblings, ¬ s.Decides k word i) :
    f.Decides k word i ↔ f'.Decides k word i := by
  cases h with
  | kept => exact Iff.rfl
  | shrunk => rw [decides_join, exists_decides_remaining hopen]

theorem decides_iff_not_decides_dual {f : Formula} :
    f.Decides k word i ↔ ¬ f.Decides k.dual word i := by
  rw [decides_dual, Classical.not_not]

theorem decides_junction_dual {fs : List Formula} :
    (Formula.junction k.dual fs).Decides k word i ↔ ∀ f ∈ fs, f.Decides k word i := by
  rw [decides_iff_not_decides_dual, decides_junction]
  simp only [decides_dual, not_exists, not_and, Classical.not_not]

theorem decides_join_dual {fs : List Formula} :
    (join k.dual fs).Decides k word i ↔ ∀ f ∈ fs, f.Decides k word i := by
  rw [decides_iff_not_decides_dual, decides_join]
  simp only [decides_dual, not_exists, not_and, Classical.not_not]

theorem forall_decides_of_trimmed {siblings nested trimmed : List Formula}
    (h : List.Forall₂ (Trimmed k siblings) nested trimmed)
    (hopen : ∀ s ∈ siblings, ¬ s.Decides k word i) :
    (∀ f ∈ nested, f.Decides k word i) ↔ ∀ f ∈ trimmed, f.Decides k word i := by
  induction h with
  | nil => exact Iff.rfl
  | cons hf _ ih =>
      rw [List.forall_mem_cons, List.forall_mem_cons, ih, hf.decides hopen]

theorem equivalent_replace {fs replacement : List Formula} {f : Formula} (hf : f ∈ fs)
    (h : ∀ word i, (∀ s ∈ fs.filter (fun g => g != f), ¬ s.Decides k word i) →
      (f.Decides k word i ↔ ∃ g ∈ replacement, g.Decides k word i)) :
    Equivalent (.junction k fs) (join k (fs.filter (fun g => g != f) ++ replacement)) := by
  apply equivalent_of_decides k
  intro word i
  rw [decides_junction, decides_join]
  by_cases hsibling : ∃ s ∈ fs.filter (fun g => g != f), s.Decides k word i
  · rcases hsibling with ⟨s, hs, hdecides⟩
    constructor
    · intro _
      exact ⟨s, List.mem_append_left _ hs, hdecides⟩
    · intro _
      exact ⟨s, (List.mem_filter.mp hs).1, hdecides⟩
  · have hopen : ∀ s ∈ fs.filter (fun g => g != f), ¬ s.Decides k word i :=
      fun s hs hdecides => hsibling ⟨s, hs, hdecides⟩
    constructor
    · intro hexists
      rcases hexists with ⟨g, hg, hdecides⟩
      by_cases hgf : g = f
      · rw [hgf] at hdecides
        rcases (h word i hopen).mp hdecides with ⟨g', hg', hdecides'⟩
        exact ⟨g', List.mem_append_right _ hg', hdecides'⟩
      · exact absurd hdecides (hopen g (List.mem_filter.mpr ⟨hg, bne_iff_ne.mpr hgf⟩))
    · intro hexists
      rcases hexists with ⟨g, hg, hdecides⟩
      rcases List.mem_append.mp hg with hg | hg
      · exact absurd hdecides (hopen g hg)
      · exact ⟨f, hf, (h word i hopen).mpr ⟨g, hg, hdecides⟩⟩

theorem SubsumptionStep.equivalent {f g : Formula} (h : SubsumptionStep f g) :
    Equivalent f g := by
  cases h with
  | @dropRedundant k fs f g hf hg hne hredundant =>
      rw [← List.append_nil (fs.filter _)]
      apply equivalent_replace hf
      intro word i hopen
      constructor
      · intro hdecides
        have hsibling : g ∈ fs.filter (fun h => h != f) :=
          List.mem_filter.mpr ⟨hg, bne_iff_ne.mpr hne⟩
        exact absurd (decides_of_makesRedundant hredundant hdecides) (hopen g hsibling)
      · intro hexists
        rcases hexists with ⟨_, hnil, _⟩
        cases hnil
  | @dropNested k fs nested f hnested hf hnil =>
      rw [← List.append_nil (fs.filter _)]
      apply equivalent_replace hnested
      intro word i hopen
      rw [decides_junction_dual]
      constructor
      · intro hall
        rcases (exists_decides_remaining hopen).mpr (hall f hf) with ⟨g, hg, _⟩
        rw [hnil] at hg
        cases hg
      · intro hexists
        rcases hexists with ⟨_, hnil, _⟩
        cases hnil
  | @trimNested k fs nested trimmed hnested _ htrimmed =>
      apply equivalent_replace hnested
      intro word i hopen
      rw [decides_junction_dual, forall_decides_of_trimmed htrimmed hopen, ← decides_join_dual]
      simp
  | untlImplied himplies => exact equivalent_untl fun _ _ => holds_of_implies himplies
  | releaseImplied himplies => exact equivalent_release fun _ _ => holds_of_implies himplies
  | eventuallyUntl left right =>
      intro word i
      rw [holds_eventually, holds_eventually]
      constructor
      · intro hexists
        rcases hexists with ⟨j, hij, h⟩
        rcases holds_untl.mp h with ⟨l, hjl, hl, _⟩
        exact ⟨l, Nat.le_trans hij hjl, hl⟩
      · intro hexists
        rcases hexists with ⟨j, hij, h⟩
        refine ⟨j, hij, holds_untl.mpr ⟨j, Nat.le_refl j, h, ?_⟩⟩
        intro l hjl hlj
        exact absurd hlj (Nat.not_lt.mpr hjl)
  | alwaysRelease left right =>
      intro word i
      rw [holds_always, holds_always]
      constructor
      · intro h j hij
        rcases holds_release.mp (h j hij) j (Nat.le_refl j) with hright | ⟨l, hjl, hlj, _⟩
        · exact hright
        · exact absurd hlj (Nat.not_lt.mpr hjl)
      · intro h j hij
        apply holds_release.mpr
        intro l hjl
        exact Or.inl (h l (Nat.le_trans hij hjl))

/-!
## Laws that move `next`

A step ahead of both sides is a step ahead of the whole.
-/

theorem NextStep.equivalent {f g : Formula} (h : NextStep f g) : Equivalent f g := by
  cases h with
  | not body =>
      intro word i
      rw [holds_not, holds_next, holds_next, holds_not]
  | always body =>
      intro word i
      rw [holds_next, holds_always_iff_untilFrom, holds_always_iff_untilFrom, untilFrom_succ]
      exact not_congr (untilFrom_congr (fun _ => Iff.rfl) (fun _ => not_congr holds_next))
  | eventually body =>
      intro word i
      rw [holds_next, holds_eventually_iff_untilFrom, holds_eventually_iff_untilFrom,
        untilFrom_succ]
      exact untilFrom_congr (fun _ => Iff.rfl) (fun _ => holds_next)
  | untl left right =>
      intro word i
      rw [holds_next, holds_untl_iff_untilFrom, holds_untl_iff_untilFrom, untilFrom_succ]
      exact untilFrom_congr (fun _ => holds_next) (fun _ => holds_next)
  | release left right =>
      intro word i
      rw [holds_next, holds_release_iff_untilFrom, holds_release_iff_untilFrom, untilFrom_succ]
      exact not_congr (untilFrom_congr (fun _ => not_congr holds_next)
        (fun _ => not_congr holds_next))
  | junction k bodies =>
      apply equivalent_of_decides k
      intro word i
      rw [decides_junction, decides_next, decides_join]
      simp only [List.mem_map, exists_exists_and_eq_and, decides_next]

/-!
## All laws

Each group on its own is sound, and so is each rule.
-/

theorem Step.equivalent {f g : Formula} (h : Step f g) : Equivalent f g := by
  cases h with
  | propositional h => exact h.equivalent
  | modal h => exact h.equivalent
  | subsumption h => exact h.equivalent
  | nextFloating h => exact h.equivalent

/-- Each rule on its own keeps the truth value at every position of every lasso, whatever
formula it is applied to. -/
theorem holdsAt_eq_of_apply {rule : Rule} (hrule : rule ∈ all) {f g : Formula}
    (h : rule.apply f = some g) (w : Lasso) (i : Nat) : w.holdsAt f i = w.holdsAt g i :=
  (Step.of_mem_all hrule (transform_of_apply h)).equivalent.holdsAt_eq w i

theorem holdsAt_eq_of_apply_absorption :
    let a := proposition "a"
    let b := proposition "b"
    let c := proposition "c"
    let rule := subsumption[2]
    let f := Formula.junction .and
      [a, .junction .and [], .junction .or [.junction .and [a, b], .junction .and [c, a]]]
    let g := Formula.junction .and [a, .junction .or [b, c]]
    let w := Lasso.constant (State.ofPropositions ["a", "c"])
    rule ∈ all ∧ rule.apply f = some g ∧ w.holdsAt f 7 = w.holdsAt g 7 := by
  intro a b c rule f g w
  have hrule : rule ∈ all :=
    List.mem_append_left _ (List.mem_append_right _ (List.getElem_mem _))
  have happly : rule.apply f = some g := by decide +kernel
  exact ⟨hrule, happly, holdsAt_eq_of_apply hrule happly w 7⟩

end Rule

end LinearTemporal

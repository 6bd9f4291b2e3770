import Mathlib.Data.List.Forall2
import LinearTemporal.Proofs.Entailment
import LinearTemporal.Strategy

/-!
# What a rule can do

Every rule is a handful of laws, each with a left side, a right side and a
condition.  The relations of this module list the laws of the four groups, one
constructor a law, and the inversion lemmas say that a rule that gives an outcome
applied one of them.  What holds of all rules is shown by cases on these
relations, and no proof after this module opens a rule again.
-/

namespace LinearTemporal

namespace Formula

theorem constant?_eq_some_iff {f : Formula} {value : Bool} :
    f.constant? = some value ↔ f = const value := by
  cases f <;> simp [constant?]

theorem isSome_constant?_iff {f : Formula} :
    f.constant?.isSome = true ↔ ∃ value, f = const value := by
  cases f <;> simp [constant?]

theorem any_constant?_iff {fs : List Formula} {value : Bool} :
    fs.any (fun f => f.constant? == some value) = true ↔ const value ∈ fs := by
  simp only [List.any_eq_true, beq_iff_eq, constant?_eq_some_iff]
  constructor
  · intro hexists
    rcases hexists with ⟨f, hf, rfl⟩
    exact hf
  · intro hf
    exact ⟨_, hf, rfl⟩

theorem next?_eq_some_iff {f body : Formula} : f.next? = some body ↔ f = next body := by
  cases f <;> simp [next?]

theorem always?_eq_some_iff {f body : Formula} : f.always? = some body ↔ f = always body := by
  cases f <;> simp [always?]

theorem eventually?_eq_some_iff {f body : Formula} :
    f.eventually? = some body ↔ f = eventually body := by
  cases f <;> simp [eventually?]

theorem eq_map_next_of_nextAll? {fs bodies : List Formula} (h : nextAll? fs = some bodies) :
    fs = bodies.map next := by
  induction fs generalizing bodies with
  | nil =>
      cases h
      rfl
  | cons f fs ih =>
      unfold nextAll? at h
      split at h
      · rename_i body rest hbody hrest
        cases h
        rw [next?_eq_some_iff.mp hbody, ih hrest]
        rfl
      · cases h

end Formula

namespace Rule

open Formula

/-!
## Propositional laws

Where a rule tells cases apart, each case is a law of its own.
-/

inductive PropositionalStep : Formula → Formula → Prop where
  | negatedConst (value : Bool) : PropositionalStep (.not (.const value)) (.const (!value))
  | absorbing {k fs} : Formula.const k.absorbing ∈ fs →
      PropositionalStep (.junction k fs) (.const k.absorbing)
  | neutral {k fs} : Formula.const k.absorbing ∉ fs → Formula.const k.neutral ∈ fs →
      PropositionalStep (.junction k fs) (join k (fs.filter (fun f => f.constant?.isNone)))
  | doubleNegation (body : Formula) : PropositionalStep (.not (.not body)) body
  | negatedLiteral (name : String) (negated : Bool) :
      PropositionalStep (.not (.literal name negated)) (.literal name (!negated))
  | negatedAtom (left : Term) (op : Comparison) (right : Term) :
      PropositionalStep (.not (.atom left op right)) (.atom left op.negate right)
  | complementary {k fs f g} : f ∈ fs → g ∈ fs → f.complement? = some g →
      PropositionalStep (.junction k fs) (.const k.absorbing)

theorem PropositionalStep.of_foldConstants {f g : Formula} (h : foldConstants f = some g) :
    PropositionalStep f g := by
  unfold foldConstants at h
  split at h
  · cases h
    exact negatedConst _
  · rename_i k fs
    split at h
    · rename_i habsorbing
      cases h
      exact absorbing (any_constant?_iff.mp habsorbing)
    · rename_i habsorbing
      rw [any_constant?_iff] at habsorbing
      split at h
      · rename_i hconst
        cases h
        rcases List.any_eq_true.mp hconst with ⟨f, hf, hsome⟩
        rcases isSome_constant?_iff.mp hsome with ⟨value, rfl⟩
        have hvalue : value = k.neutral := by
          have hne : value ≠ k.absorbing := fun heq => habsorbing (heq ▸ hf)
          revert hne
          cases k <;> cases value <;> simp [Connective.absorbing, Connective.neutral]
        exact neutral habsorbing (hvalue ▸ hf)
      · cases h
  · cases h

theorem PropositionalStep.of_doubleNegation {f g : Formula} (h : Rule.doubleNegation f = some g) :
    PropositionalStep f g := by
  unfold Rule.doubleNegation at h
  split at h
  · cases h
    exact doubleNegation _
  · cases h

theorem PropositionalStep.of_negateLeaf {f g : Formula} (h : negateLeaf f = some g) :
    PropositionalStep f g := by
  unfold negateLeaf at h
  split at h
  · cases h
    exact negatedLiteral _ _
  · cases h
    exact negatedAtom _ _ _
  · cases h

theorem complementaryOperands_eq_some {f g : Formula} (h : complementaryOperands f = some g) :
    ∃ k fs c c', f = junction k fs ∧ c ∈ fs ∧ c' ∈ fs ∧ c.complement? = some c' ∧
      g = const k.absorbing := by
  unfold complementaryOperands at h
  split at h
  · rename_i k fs
    split at h
    · rename_i hclash
      rcases List.any_eq_true.mp hclash with ⟨c', hc', hcontains⟩
      rcases List.mem_filterMap.mp hc' with ⟨c, hc, hcomplement⟩
      cases h
      exact ⟨k, fs, c, c', rfl, hc, List.contains_iff_mem.mp hcontains, hcomplement, rfl⟩
    · cases h
  · cases h

theorem PropositionalStep.of_complementaryOperands {f g : Formula}
    (h : complementaryOperands f = some g) : PropositionalStep f g := by
  rcases complementaryOperands_eq_some h with ⟨_, _, _, _, rfl, hc, hc', hcomplement, rfl⟩
  exact complementary hc hc' hcomplement

theorem PropositionalStep.of_mem {rule : Rule} (hrule : rule ∈ propositional) {f g : Formula}
    (h : rule.transform f = some g) : PropositionalStep f g := by
  simp only [propositional, List.mem_cons, List.not_mem_nil, or_false] at hrule
  rcases hrule with rfl | rfl | rfl | rfl
  · exact of_foldConstants h
  · exact of_doubleNegation h
  · exact of_negateLeaf h
  · exact of_complementaryOperands h

/-!
## Modal laws

`always` distributes over conjunctions, `eventually` over disjunctions and `next` over
both.  The laws that merge operands have such an operator as a parameter, with the
function that takes it off.
-/

inductive Distributes : Connective → (Formula → Option Formula) → (Formula → Formula) → Prop where
  | always : Distributes .and always? .always
  | eventually : Distributes .or eventually? .eventually
  | next (k : Connective) : Distributes k next? .next

theorem Distributes.isUnary {k : Connective} {body? : Formula → Option Formula}
    {wrap : Formula → Formula} (h : Distributes k body? wrap) : IsUnary wrap := by
  cases h with
  | always => exact IsUnary.always
  | eventually => exact IsUnary.eventually
  | next => exact IsUnary.next

theorem Distributes.eq_some_iff {k : Connective} {body? : Formula → Option Formula}
    {wrap : Formula → Formula} (h : Distributes k body? wrap) {f body : Formula} :
    body? f = some body ↔ f = wrap body := by
  cases h with
  | always => exact always?_eq_some_iff
  | eventually => exact eventually?_eq_some_iff
  | next => exact next?_eq_some_iff

inductive ModalStep : Formula → Formula → Prop where
  | pushJunction (k : Connective) (fs : List Formula) :
      ModalStep (.not (.junction k fs)) (join k.dual (fs.map negated))
  | pushNext (body : Formula) : ModalStep (.not (.next body)) (.next body.negated)
  | pushAlways (body : Formula) : ModalStep (.not (.always body)) (.eventually body.negated)
  | pushEventually (body : Formula) : ModalStep (.not (.eventually body)) (.always body.negated)
  | pushUntl (left right : Formula) :
      ModalStep (.not (.untl left right)) (.release left.negated right.negated)
  | pushRelease (left right : Formula) :
      ModalStep (.not (.release left right)) (.untl left.negated right.negated)
  | nextConst (value : Bool) : ModalStep (.next (.const value)) (.const value)
  | alwaysConst (value : Bool) : ModalStep (.always (.const value)) (.const value)
  | eventuallyConst (value : Bool) : ModalStep (.eventually (.const value)) (.const value)
  | untlConst (left : Formula) (value : Bool) :
      ModalStep (.untl left (.const value)) (.const value)
  | untlFalse (right : Formula) : ModalStep (.untl (.const false) right) right
  | untlTrue (right : Formula) : ModalStep (.untl (.const true) right) (.eventually right)
  | releaseConst (left : Formula) (value : Bool) :
      ModalStep (.release left (.const value)) (.const value)
  | releaseTrue (right : Formula) : ModalStep (.release (.const true) right) right
  | releaseFalse (right : Formula) : ModalStep (.release (.const false) right) (.always right)
  | nextInvariant {body} : body.isSuffixInvariant = true → ModalStep (.next body) body
  | alwaysInvariant {body} : body.isSuffixInvariant = true → ModalStep (.always body) body
  | eventuallyInvariant {body} : body.isSuffixInvariant = true → ModalStep (.eventually body) body
  | alwaysAlways (body : Formula) : ModalStep (.always (.always body)) (.always body)
  | eventuallyEventually (body : Formula) :
      ModalStep (.eventually (.eventually body)) (.eventually body)
  | untlSame (f : Formula) : ModalStep (.untl f f) f
  | releaseSame (f : Formula) : ModalStep (.release f f) f
  | merge {k body? wrap fs} : Distributes k body? wrap → 2 ≤ (fs.filterMap body?).length →
      ModalStep (.junction k fs)
        (join k (fs.filter (fun f => (body? f).isNone) ++ [wrap (join k (fs.filterMap body?))]))

theorem ModalStep.of_pushNegation {f g : Formula} (h : pushNegation f = some g) :
    ModalStep f g := by
  unfold pushNegation at h
  split at h
  · cases h
    exact pushJunction _ _
  · cases h
    exact pushNext _
  · cases h
    exact pushAlways _
  · cases h
    exact pushEventually _
  · cases h
    exact pushUntl _ _
  · cases h
    exact pushRelease _ _
  · cases h

theorem ModalStep.of_temporalConstants {f g : Formula} (h : temporalConstants f = some g) :
    ModalStep f g := by
  unfold temporalConstants at h
  split at h
  · cases h
    exact nextConst _
  · cases h
    exact alwaysConst _
  · cases h
    exact eventuallyConst _
  · cases h
    exact untlConst _ _
  · cases h
    exact untlFalse _
  · cases h
    exact untlTrue _
  · cases h
    exact releaseConst _ _
  · cases h
    exact releaseTrue _
  · cases h
    exact releaseFalse _
  · cases h

theorem ModalStep.of_temporalIdempotence {f g : Formula} (h : temporalIdempotence f = some g) :
    ModalStep f g := by
  unfold temporalIdempotence at h
  split at h
  · split at h
    · rename_i hinvariant
      cases h
      exact nextInvariant hinvariant
    · cases h
  · split at h
    · rename_i hbody
      cases h
      rcases (Bool.or_eq_true _ _).mp hbody with halways | hinvariant
      · rcases eq_always_of_isAlways halways with ⟨body, rfl⟩
        exact alwaysAlways body
      · exact alwaysInvariant hinvariant
    · cases h
  · split at h
    · rename_i hbody
      cases h
      rcases (Bool.or_eq_true _ _).mp hbody with heventually | hinvariant
      · rcases eq_eventually_of_isEventually heventually with ⟨body, rfl⟩
        exact eventuallyEventually body
      · exact eventuallyInvariant hinvariant
    · cases h
  · split at h
    · rename_i hsame
      cases h
      rw [← hsame]
      exact untlSame _
    · cases h
  · split at h
    · rename_i hsame
      cases h
      rw [← hsame]
      exact releaseSame _
    · cases h
  · cases h

theorem ModalStep.of_mergeUnder {k : Connective} {body? : Formula → Option Formula}
    {wrap : Formula → Formula} (hwrap : Distributes k body? wrap) {fs : List Formula}
    {g : Formula} (h : mergeUnder k body? wrap fs = some g) : ModalStep (.junction k fs) g := by
  simp only [mergeUnder] at h
  split at h
  · cases h
  · rename_i hcount
    cases h
    exact merge hwrap (Nat.le_of_not_lt hcount)

theorem ModalStep.of_mergeTemporal {f g : Formula} (h : mergeTemporal f = some g) :
    ModalStep f g := by
  unfold mergeTemporal at h
  split at h
  · rcases Option.or_eq_some_iff.mp h with halways | ⟨_, hnext⟩
    · exact of_mergeUnder Distributes.always halways
    · exact of_mergeUnder (Distributes.next _) hnext
  · rcases Option.or_eq_some_iff.mp h with heventually | ⟨_, hnext⟩
    · exact of_mergeUnder Distributes.eventually heventually
    · exact of_mergeUnder (Distributes.next _) hnext
  · cases h

theorem ModalStep.of_mem {rule : Rule} (hrule : rule ∈ modal) {f g : Formula}
    (h : rule.transform f = some g) : ModalStep f g := by
  simp only [modal, List.mem_cons, List.not_mem_nil, or_false] at hrule
  rcases hrule with rfl | rfl | rfl | rfl
  · exact of_pushNegation h
  · exact of_temporalConstants h
  · exact of_temporalIdempotence h
  · exact of_mergeTemporal h

/-!
## Subsumption laws

Trimming leaves an operand of a nested junction as it is, or leaves it some of its own
operands.
-/

inductive Trimmed (k : Connective) (siblings : List Formula) : Formula → Formula → Prop where
  | kept (f : Formula) : Trimmed k siblings f f
  | shrunk {f} : remaining k siblings f ≠ [] →
      (remaining k siblings f).length < (f.operandsUnder k).length →
      Trimmed k siblings f (join k (remaining k siblings f))

theorem length_remaining_le (k : Connective) (siblings : List Formula) (f : Formula) :
    (remaining k siblings f).length ≤ (f.operandsUnder k).length :=
  List.length_filter_le _ _

theorem forall₂_trimmed_of_trim {k : Connective} {siblings fs gs : List Formula}
    (h : trim k siblings fs = some gs) : List.Forall₂ (Trimmed k siblings) fs gs := by
  induction fs generalizing gs with
  | nil =>
      cases h
      exact List.Forall₂.nil
  | cons f fs ih =>
      simp only [trim] at h
      split at h
      · rcases Option.bind_eq_some_iff.mp h with ⟨rest, hrest, hgs⟩
        cases hgs
        exact List.Forall₂.cons (Trimmed.kept f) (ih hrest)
      · rename_i hlength
        split at h
        · cases h
        · rename_i hempty
          rcases Option.bind_eq_some_iff.mp h with ⟨rest, hrest, hgs⟩
          cases hgs
          have hne : remaining k siblings f ≠ [] := fun heq => hempty (by rw [heq]; rfl)
          exact List.Forall₂.cons
            (Trimmed.shrunk hne (Nat.lt_of_le_of_ne (length_remaining_le k siblings f) hlength))
            (ih hrest)

theorem exists_remaining_eq_nil_of_trim {k : Connective} {siblings fs : List Formula}
    (h : trim k siblings fs = none) : ∃ f ∈ fs, remaining k siblings f = [] := by
  induction fs with
  | nil => cases h
  | cons f fs ih =>
      cases hrest : trim k siblings fs with
      | none =>
          rcases ih hrest with ⟨g, hg, hnil⟩
          exact ⟨g, List.mem_cons_of_mem f hg, hnil⟩
      | some rest =>
          simp only [trim, hrest] at h
          split at h
          · cases h
          · split at h
            · rename_i hempty
              exact ⟨f, List.mem_cons_self, List.isEmpty_iff.mp hempty⟩
            · cases h

inductive SubsumptionStep : Formula → Formula → Prop where
  | dropRedundant {k fs f g} : f ∈ fs → g ∈ fs → g ≠ f → makesRedundant k g f = true →
      SubsumptionStep (.junction k fs) (join k (fs.filter (fun h => h != f)))
  | dropNested {k fs nested f} : Formula.junction k.dual nested ∈ fs → f ∈ nested →
      remaining k (fs.filter (fun h => h != .junction k.dual nested)) f = [] →
      SubsumptionStep (.junction k fs)
        (join k (fs.filter (fun h => h != .junction k.dual nested)))
  | trimNested {k fs nested trimmed} : Formula.junction k.dual nested ∈ fs → trimmed ≠ nested →
      List.Forall₂ (Trimmed k (fs.filter (fun h => h != .junction k.dual nested)))
        nested trimmed →
      SubsumptionStep (.junction k fs)
        (join k (fs.filter (fun h => h != .junction k.dual nested) ++ [join k.dual trimmed]))
  | untlImplied {left right} : left.implies right = true →
      SubsumptionStep (.untl left right) right
  | releaseImplied {left right} : right.implies left = true →
      SubsumptionStep (.release left right) right
  | eventuallyUntl (left right : Formula) :
      SubsumptionStep (.eventually (.untl left right)) (.eventually right)
  | alwaysRelease (left right : Formula) :
      SubsumptionStep (.always (.release left right)) (.always right)

theorem exists_of_dropRedundant {k : Connective} {fs : List Formula} {g : Formula}
    (h : dropRedundant k fs = some g) :
    ∃ f ∈ fs, ∃ s ∈ fs, s ≠ f ∧ makesRedundant k s f = true ∧
      g = join k (fs.filter (fun h => h != f)) := by
  unfold dropRedundant at h
  rcases Option.map_eq_some_iff.mp h with ⟨f, hfind, rfl⟩
  have hf := List.mem_of_find?_eq_some hfind
  have hany : fs.any (fun g => g != f && makesRedundant k g f) = true := by
    simpa using List.find?_some hfind
  rcases List.any_eq_true.mp hany with ⟨s, hs, hredundant⟩
  rcases (Bool.and_eq_true _ _).mp hredundant with ⟨hne, hmakes⟩
  exact ⟨f, hf, s, hs, bne_iff_ne.mp hne, hmakes, rfl⟩

theorem SubsumptionStep.of_dropRedundant {k : Connective} {fs : List Formula} {g : Formula}
    (h : Rule.dropRedundant k fs = some g) : SubsumptionStep (.junction k fs) g := by
  rcases exists_of_dropRedundant h with ⟨f, hf, s, hs, hne, hredundant, rfl⟩
  exact dropRedundant hf hs hne hredundant

theorem SubsumptionStep.of_dropImpliedConjunct {f g : Formula}
    (h : dropImpliedConjunct f = some g) : SubsumptionStep f g := by
  unfold dropImpliedConjunct at h
  split at h
  · exact of_dropRedundant h
  · cases h

theorem SubsumptionStep.of_dropImplyingDisjunct {f g : Formula}
    (h : dropImplyingDisjunct f = some g) : SubsumptionStep f g := by
  unfold dropImplyingDisjunct at h
  split at h
  · exact of_dropRedundant h
  · cases h

theorem SubsumptionStep.of_contextualAbsorption {f g : Formula}
    (h : contextualAbsorption f = some g) : SubsumptionStep f g := by
  unfold contextualAbsorption at h
  split at h
  · rename_i k fs
    rcases List.exists_of_findSome?_eq_some h with ⟨f, hf, hreplaced⟩
    split at hreplaced
    · rename_i l nested
      split at hreplaced
      · rename_i hdual
        subst hdual
        rcases Option.map_eq_some_iff.mp hreplaced with ⟨replacement, habsorb, rfl⟩
        unfold absorb at habsorb
        split at habsorb
        · rename_i htrim
          cases habsorb
          rcases exists_remaining_eq_nil_of_trim htrim with ⟨part, hpart, hnil⟩
          rw [List.append_nil]
          exact dropNested hf hpart hnil
        · rename_i trimmed htrim
          split at habsorb
          · cases habsorb
          · rename_i hne
            cases habsorb
            exact trimNested hf hne (forall₂_trimmed_of_trim htrim)
      · cases hreplaced
    · cases hreplaced
  · cases h

theorem SubsumptionStep.of_subsumedUntilRelease {f g : Formula}
    (h : subsumedUntilRelease f = some g) : SubsumptionStep f g := by
  unfold subsumedUntilRelease at h
  split at h
  · split at h
    · rename_i himplies
      cases h
      exact untlImplied himplies
    · cases h
  · split at h
    · rename_i himplies
      cases h
      exact releaseImplied himplies
    · cases h
  · cases h
    exact eventuallyUntl _ _
  · cases h
    exact alwaysRelease _ _
  · cases h

theorem SubsumptionStep.of_mem {rule : Rule} (hrule : rule ∈ subsumption) {f g : Formula}
    (h : rule.transform f = some g) : SubsumptionStep f g := by
  simp only [subsumption, List.mem_cons, List.not_mem_nil, or_false] at hrule
  rcases hrule with rfl | rfl | rfl | rfl
  · exact of_dropImpliedConjunct h
  · exact of_dropImplyingDisjunct h
  · exact of_contextualAbsorption h
  · exact of_subsumedUntilRelease h

/-!
## Laws that move `next`

One law for each operator, and one for junctions whose operands all start with `next`.
-/

inductive NextStep : Formula → Formula → Prop where
  | not (body : Formula) : NextStep (.not (.next body)) (.next (.not body))
  | always (body : Formula) : NextStep (.always (.next body)) (.next (.always body))
  | eventually (body : Formula) : NextStep (.eventually (.next body)) (.next (.eventually body))
  | untl (left right : Formula) :
      NextStep (.untl (.next left) (.next right)) (.next (.untl left right))
  | release (left right : Formula) :
      NextStep (.release (.next left) (.next right)) (.next (.release left right))
  | junction (k : Connective) (bodies : List Formula) :
      NextStep (.junction k (bodies.map Formula.next)) (.next (join k bodies))

theorem NextStep.of_pullNext {f g : Formula} (h : pullNext f = some g) : NextStep f g := by
  unfold pullNext at h
  split at h
  · cases h
    exact not _
  · cases h
    exact always _
  · cases h
    exact eventually _
  · cases h
    exact untl _ _
  · cases h
    exact release _ _
  · rcases Option.map_eq_some_iff.mp h with ⟨bodies, hbodies, rfl⟩
    rw [eq_map_next_of_nextAll? hbodies]
    exact junction _ bodies
  · cases h

theorem NextStep.of_mem {rule : Rule} (hrule : rule ∈ nextFloating) {f g : Formula}
    (h : rule.transform f = some g) : NextStep f g := by
  rcases List.mem_singleton.mp hrule with rfl
  exact of_pullNext h

/-!
## All rules, and the rules of a strategy

The strategy that moves `next` has no rule of the other groups, and no other strategy
has a rule of its group.
-/

/-- What a rule of any group can do. -/
inductive Step : Formula → Formula → Prop where
  | propositional {f g} : PropositionalStep f g → Step f g
  | modal {f g} : ModalStep f g → Step f g
  | subsumption {f g} : SubsumptionStep f g → Step f g
  | nextFloating {f g} : NextStep f g → Step f g

theorem transform_of_apply {rule : Rule} {f g : Formula} (h : rule.apply f = some g) :
    rule.transform f = some g := by
  unfold apply at h
  split at h
  · rename_i g' htransform
    split at h
    · cases h
    · cases h
      exact htransform
  · cases h

def all : List Rule :=
  propositional ++ modal ++ subsumption ++ nextFloating

theorem Step.of_mem_all {rule : Rule} (hrule : rule ∈ all) {f g : Formula}
    (h : rule.transform f = some g) : Step f g := by
  rcases List.mem_append.mp hrule with hrule | hrule
  · rcases List.mem_append.mp hrule with hrule | hrule
    · rcases List.mem_append.mp hrule with hrule | hrule
      · exact Step.propositional (PropositionalStep.of_mem hrule h)
      · exact Step.modal (ModalStep.of_mem hrule h)
    · exact Step.subsumption (SubsumptionStep.of_mem hrule h)
  · exact Step.nextFloating (NextStep.of_mem hrule h)

end Rule

theorem Strategy.mem_rules {s : Strategy} {rule : Rule} (h : rule ∈ s.rules) :
    (s = .pullNext ∧ rule ∈ Rule.nextFloating) ∨
      (s ≠ .pullNext ∧
        (rule ∈ Rule.propositional ∨ rule ∈ Rule.modal ∨ rule ∈ Rule.subsumption)) := by
  rcases List.mem_flatten.mp h with ⟨group, hgroup, hrule⟩
  cases s with
  | propositional | modal | aggressive =>
      simp only [Strategy.groups, List.mem_cons, List.not_mem_nil, or_false] at hgroup
      rcases hgroup with rfl | rfl | rfl <;> simp [hrule]
  | pullNext =>
      simp only [Strategy.groups, List.mem_cons, List.not_mem_nil, or_false] at hgroup
      rcases hgroup with rfl
      simp [hrule]

theorem Rule.Step.of_transform {s : Strategy} {rule : Rule} (hrule : rule ∈ s.rules)
    {f g : Formula} (h : rule.transform f = some g) : Rule.Step f g := by
  rcases Strategy.mem_rules hrule with ⟨_, hrule⟩ | ⟨_, hrule | hrule | hrule⟩
  · exact Step.nextFloating (NextStep.of_mem hrule h)
  · exact Step.propositional (PropositionalStep.of_mem hrule h)
  · exact Step.modal (ModalStep.of_mem hrule h)
  · exact Step.subsumption (SubsumptionStep.of_mem hrule h)

theorem Rule.Step.of_mem_rules {s : Strategy} {rule : Rule} (hrule : rule ∈ s.rules)
    {f g : Formula} (h : rule.apply f = some g) : Rule.Step f g :=
  of_transform hrule (Rule.transform_of_apply h)

end LinearTemporal

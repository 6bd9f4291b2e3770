import LinearTemporal.Proofs.Bulk
import LinearTemporal.Proofs.RuleShape

/-!
# Rules run out

Every law makes the weight of a formula in canonical shape smaller.  A law of the
first three groups leaves less bulk, or as much of it without the negation at the
root, and the law that moves `next` fires once at a node.  So there is a limit to
the firings at a node, and it is below the one that a pass allows.
-/

namespace LinearTemporal

namespace Rule

open Formula

/-!
## Every law lowers the weight

Pushing a negation pays because it doubles what is below it, and pulling `next` out of a
junction because there are two operands or more.
-/

theorem PropositionalStep.weight_lt {f g : Formula} (h : PropositionalStep f g) :
    g.weight < f.weight := by
  cases h with
  | negatedConst | negatedLiteral | negatedAtom =>
      simp only [weight]
      omega
  | absorbing hmem | complementary hmem => exact isMeasure_weight.one_lt_junction hmem
  | neutral _ hneutral => exact isMeasure_weight.join_filter_lt hneutral rfl
  | doubleNegation body =>
      have hpos := weight_pos g
      simp only [weight]
      omega

theorem ModalStep.weight_lt {f g : Formula} (h : ModalStep f g) : g.weight < f.weight := by
  cases h with
  | pushJunction k fs =>
      have hjoin := isMeasure_weight.join_le (k := k.dual) (fs.map negated)
      have hsum := sum_weight_negated_le fs
      show _ < 2 * weight (Formula.junction k fs)
      rw [isMeasure_weight.junction]
      omega
  | pushNext body | pushAlways body | pushEventually body =>
      have hbody := weight_negated_le body
      simp only [weight]
      omega
  | pushUntl left right | pushRelease left right =>
      have hleft := weight_negated_le left
      have hright := weight_negated_le right
      simp only [weight]
      omega
  | merge hwrap hcount =>
      cases hwrap with
      | always =>
          exact isMeasure_weight.join_merge_lt Distributes.always 2 3
            (fun f => by simp only [weight]) hcount (by omega)
      | eventually =>
          exact isMeasure_weight.join_merge_lt Distributes.eventually 2 3
            (fun f => by simp only [weight]) hcount (by omega)
      | next =>
          exact isMeasure_weight.join_merge_lt (Distributes.next _) 1 2
            (fun f => by simp only [weight, Nat.one_mul]) hcount (by omega)
  | _ =>
      simp only [weight]
      omega

theorem SubsumptionStep.weight_lt {f g : Formula} (h : SubsumptionStep f g) :
    g.weight < f.weight := by
  cases h with
  | dropRedundant hf => exact isMeasure_weight.join_filter_lt hf (by simp)
  | dropNested hnested => exact isMeasure_weight.join_filter_lt hnested (by simp)
  | trimNested hnested hne htrimmed =>
      apply isMeasure_weight.join_replace_lt hnested (by simp)
      rw [List.map_singleton, List.sum_singleton]
      exact isMeasure_weight.join_trimmed_lt hne htrimmed
  | _ =>
      simp only [weight]
      omega

theorem NextStep.weight_lt {f g : Formula} (h : NextStep f g) (hf : f.IsValid) :
    g.weight < f.weight := by
  cases h with
  | junction k bodies =>
      have hle := isMeasure_weight.next_join_add_le (fun _ => rfl) hf
      omega
  | _ =>
      simp only [weight]
      omega

theorem Step.weight_lt {f g : Formula} (h : Step f g) (hf : f.IsValid) : g.weight < f.weight := by
  cases h with
  | propositional h => exact h.weight_lt
  | modal h => exact h.weight_lt
  | subsumption h => exact h.weight_lt
  | nextFloating h => exact h.weight_lt hf

/-!
## No law raises a measure without signs

Negations cost nothing here, and every other law drops an operator, moves one or trades
one for another.
-/

section

variable {m : Formula → Nat} {extra : Nat} (hm : IsUnsigned m extra) {f g : Formula}

include hm

theorem PropositionalStep.unsigned_le (h : PropositionalStep f g) : m g ≤ m f := by
  cases h with
  | negatedConst | negatedLiteral | negatedAtom | doubleNegation =>
      simp only [hm.not, hm.const, hm.literal, hm.atom, Nat.le_refl]
  | absorbing hmem | complementary hmem =>
      rw [hm.const]
      exact Nat.le_of_lt (hm.isMeasure.one_lt_junction hmem)
  | neutral _ hneutral => exact Nat.le_of_lt (hm.isMeasure.join_filter_lt hneutral rfl)

theorem ModalStep.unsigned_le (h : ModalStep f g) : m g ≤ m f := by
  have hextra := hm.extra_pos
  cases h with
  | pushJunction k fs =>
      have hjoin := hm.isMeasure.join_le (k := k.dual) (fs.map negated)
      rw [hm.sum_negated] at hjoin
      rw [hm.not, hm.junction]
      exact hjoin
  | pushNext | pushAlways | pushEventually | pushUntl | pushRelease =>
      simp only [hm.not, hm.next, hm.always, hm.eventually, hm.untl, hm.release, hm.negated,
        Nat.le_refl]
  | merge hwrap hcount =>
      have hle := hm.isMeasure.join_merge_add_le hwrap 1 extra
        (fun f => by cases hwrap <;> simp only [hm.next, hm.always, hm.eventually, Nat.one_mul])
        hcount
      omega
  | _ =>
      simp only [hm.const, hm.next, hm.always, hm.eventually, hm.untl, hm.release]
      omega

theorem SubsumptionStep.unsigned_lt (h : SubsumptionStep f g) : m g < m f := by
  have hextra := hm.extra_pos
  cases h with
  | dropRedundant hf => exact hm.isMeasure.join_filter_lt hf (by simp)
  | dropNested hnested => exact hm.isMeasure.join_filter_lt hnested (by simp)
  | trimNested hnested hne htrimmed =>
      apply hm.isMeasure.join_replace_lt hnested (by simp)
      rw [List.map_singleton, List.sum_singleton]
      exact hm.isMeasure.join_trimmed_lt hne htrimmed
  | _ =>
      simp only [hm.always, hm.eventually, hm.untl, hm.release]
      omega

theorem NextStep.unsigned_le (h : NextStep f g) (hf : f.IsValid) : m g ≤ m f := by
  cases h with
  | junction k bodies =>
      exact Nat.le_of_add_right_le (hm.isMeasure.next_join_add_le hm.next hf)
  | _ =>
      simp only [hm.not, hm.next, hm.always, hm.eventually, hm.untl, hm.release]
      omega

theorem Step.unsigned_le (h : Step f g) (hf : f.IsValid) : m g ≤ m f := by
  cases h with
  | propositional h => exact h.unsigned_le hm
  | modal h => exact h.unsigned_le hm
  | subsumption h => exact Nat.le_of_lt (h.unsigned_lt hm)
  | nextFloating h => exact h.unsigned_le hm hf

end

/-!
## The laws of the first three groups lower the charge

Bulk is lowered but by the laws about negations, which take one away from the root.
-/

theorem PropositionalStep.charge_lt {f g : Formula} (h : PropositionalStep f g) :
    g.charge < f.charge ∨ f = .not (.not g) := by
  cases h with
  | negatedConst | negatedLiteral | negatedAtom =>
      apply Or.inl
      simp only [charge, bulk]
      omega
  | absorbing hmem | complementary hmem =>
      exact Or.inl (charge_lt_of_bulk_lt (isMeasure_bulk.one_lt_junction hmem))
  | neutral _ hneutral =>
      exact Or.inl (charge_lt_of_bulk_lt (isMeasure_bulk.join_filter_lt hneutral rfl))
  | doubleNegation body => exact Or.inr rfl

theorem ModalStep.charge_lt {f g : Formula} (h : ModalStep f g) : g.charge < f.charge := by
  cases h with
  | pushJunction k fs =>
      have hjoin := charge_join_le k.dual (fs.map negated)
      rw [isUnsigned_bulk.sum_negated] at hjoin
      show _ < 2 * bulk (Formula.junction k fs) + 1
      rw [isMeasure_bulk.junction]
      omega
  | pushNext | pushAlways | pushEventually | pushUntl | pushRelease =>
      simp only [charge, bulk, isUnsigned_bulk.negated]
      omega
  | merge hwrap hcount =>
      apply charge_lt_of_bulk_lt
      apply isMeasure_bulk.join_merge_lt hwrap 1 2 _ hcount (by omega)
      intro f
      cases hwrap <;> simp only [bulk, Nat.one_mul]
  | _ =>
      apply charge_lt_of_bulk_lt
      simp only [bulk]
      omega

theorem SubsumptionStep.charge_lt {f g : Formula} (h : SubsumptionStep f g) :
    g.charge < f.charge :=
  charge_lt_of_bulk_lt (h.unsigned_lt isUnsigned_bulk)

theorem exists_doubleNegation :
    ∃ rule ∈ propositional, ∀ body, rule.apply (.not (.not body)) = some body := by
  refine ⟨_, List.mem_cons_of_mem _ List.mem_cons_self, ?_⟩
  intro body
  have hne : body ≠ .not (.not body) := by
    intro heq
    have hsize := congrArg size heq
    simp only [size] at hsize
    omega
  simp [apply, Rule.doubleNegation, hne]

end Rule

/-!
## Firing at one node

The charge of a strategy is how often its rules can fire at a node whose parts they
leave alone.  A firing uses up charge, and reducing the parts of the outcome gives none
back.
-/

namespace Strategy

open Formula

theorem propositional_subset_rules {s : Strategy} (hs : s ≠ pullNext) {rule : Rule}
    (h : rule ∈ Rule.propositional) : rule ∈ s.rules := by
  cases s with
  | pullNext => exact absurd rfl hs
  | propositional | modal | aggressive => exact List.mem_append_left _ h

/-- How often rules of the strategy can fire at a node whose parts they leave alone. -/
def charge : Strategy → Formula → Nat
  | pullNext, .next _ => 0
  | pullNext, _ => 1
  | _, f => f.charge

theorem charge_of_ne_pullNext {s : Strategy} (hs : s ≠ pullNext) (f : Formula) :
    s.charge f = f.charge := by
  cases s with
  | pullNext => exact absurd rfl hs
  | propositional | modal | aggressive => cases f <;> rfl

theorem charge_le_limit (s : Strategy) (f : Formula) : s.charge f ≤ s.rules.length * f.size := by
  have hcharge := charge_le_size f
  have hsize := size_pos f
  cases s with
  | propositional =>
      rw [charge_of_ne_pullNext Strategy.noConfusion]
      show f.charge ≤ 4 * f.size
      omega
  | modal =>
      rw [charge_of_ne_pullNext Strategy.noConfusion]
      show f.charge ≤ 8 * f.size
      omega
  | pullNext =>
      show _ ≤ 1 * f.size
      cases f <;> simp only [charge] <;> omega
  | aggressive =>
      rw [charge_of_ne_pullNext Strategy.noConfusion]
      show f.charge ≤ 12 * f.size
      omega

theorem charge_mapChildren_lt {s : Strategy} {rule : Rule} {f g : Formula}
    {change : Formula → Formula} (hrule : rule ∈ s.rules) (happly : rule.apply f = some g)
    (hchildren : ∀ c ∈ f.children, ∀ rule ∈ s.rules, rule.apply c = none)
    (hchange : ∀ c ∈ g.children, (change c).bulk ≤ c.bulk) :
    s.charge (g.mapChildren change) < s.charge f := by
  have htransform := Rule.transform_of_apply happly
  rcases mem_rules hrule with ⟨rfl, hnext⟩ | ⟨hs, hgroup⟩
  · cases Rule.NextStep.of_mem hnext htransform with
    | _ =>
        rw [IsUnary.next.mapChildren]
        exact Nat.zero_lt_one
  · rw [charge_of_ne_pullNext hs, charge_of_ne_pullNext hs]
    apply Nat.lt_of_le_of_lt (charge_mapChildren_le hchange)
    rcases hgroup with hpropositional | hmodal | hsubsumption
    · rcases (Rule.PropositionalStep.of_mem hpropositional htransform).charge_lt with hlt | rfl
      · exact hlt
      · have hroot : ∀ body, g ≠ .not body := by
          intro body heq
          rcases heq with rfl
          rcases Rule.exists_doubleNegation with ⟨double, hdouble, hbody⟩
          have hnone := hchildren (.not (.not body)) (by simp [children]) double
            (propositional_subset_rules hs hdouble)
          rw [hbody body] at hnone
          cases hnone
        have hcharge := charge_of_ne_not hroot
        simp only [Formula.charge, bulk]
        omega
    · exact (Rule.ModalStep.of_mem hmodal htransform).charge_lt
    · exact (Rule.SubsumptionStep.of_mem hsubsumption htransform).charge_lt

end Strategy

end LinearTemporal

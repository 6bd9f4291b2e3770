import LinearTemporal.Proofs.NextDepth

/-!
# Moving `next` changes nothing else

Without its `next`, the result of moving `next` to the root is the formula that one
starts from without its `next`.  Taking them away can make operands equal or bring a
junction directly under one of the same connective, so what is left is put in canonical
shape again.  Doing so commutes with joining, because the canonical shape of a junction
depends only on what its operands contribute: a repetition that is dropped before taking
`next` away would be dropped afterwards, and a junction that is flattened before would be
flattened afterwards.
-/

namespace LinearTemporal
namespace Formula

/-!
## Taking `next` away

From the leaves up, each junction is joined anew.
-/

mutual

/-- The formula without its `next`, in canonical shape. -/
def eraseNext : Formula → Formula
  | not body => not body.eraseNext
  | next body => body.eraseNext
  | always body => always body.eraseNext
  | eventually body => eventually body.eraseNext
  | untl left right => untl left.eraseNext right.eraseNext
  | release left right => release left.eraseNext right.eraseNext
  | junction k operands => join k (eraseNextAll operands)
  | f => f

def eraseNextAll : List Formula → List Formula
  | [] => []
  | f :: fs => f.eraseNext :: eraseNextAll fs

end

theorem eraseNextAll_eq_map (fs : List Formula) : eraseNextAll fs = fs.map eraseNext := by
  induction fs with
  | nil => rfl
  | cons f fs ih => rw [eraseNextAll, ih, List.map_cons]

theorem eraseNext_junction (k : Connective) (fs : List Formula) :
    (junction k fs).eraseNext = join k (fs.map eraseNext) := by
  rw [← eraseNextAll_eq_map]
  rfl

theorem isValid_eraseNext (f : Formula) : f.eraseNext.IsValid := by
  induction f using induction_on_children with
  | step f ih =>
      cases f with
      | const | literal | atom => rfl
      | not body | next body | always body | eventually body => exact ih body List.mem_cons_self
      | untl left right =>
          exact isValid_untl.mpr ⟨ih left List.mem_cons_self,
            ih right (List.mem_cons_of_mem _ List.mem_cons_self)⟩
      | release left right =>
          exact isValid_release.mpr ⟨ih left List.mem_cons_self,
            ih right (List.mem_cons_of_mem _ List.mem_cons_self)⟩
      | junction k fs =>
          rw [eraseNext_junction]
          exact isValid_join (List.forall_mem_map.mpr ih)

/-!
## Taking `next` away from what is joined

Formulas without `next` contribute to a junction what their operands do, so it makes no
difference whether `next` is taken away before joining or afterwards.
-/

theorem isValid_of_mem_map_eraseNext (fs : List Formula) :
    ∀ g ∈ fs.map eraseNext, g.IsValid :=
  List.forall_mem_map.mpr fun f _ => isValid_eraseNext f

theorem mem_operandsUnder_eraseNext {k : Connective} {f g : Formula} (hf : f.IsValid) :
    g ∈ f.eraseNext.operandsUnder k ↔ ∃ h ∈ f.operandsUnder k, g ∈ h.eraseNext.operandsUnder k := by
  cases hk : f.isJunction k with
  | true =>
      have hjunction := eq_junction_of_isJunction hk
      rw [hjunction] at hf
      have hne : (f.operandsUnder k).map eraseNext ≠ [] :=
        mt List.map_eq_nil_iff.mp hf.operands_ne_nil
      conv_lhs => rw [hjunction]
      rw [eraseNext_junction, mem_operandsUnder_join_iff hne (isValid_of_mem_map_eraseNext _)]
      simp only [List.mem_map, exists_exists_and_eq_and]
  | false =>
      rw [operandsUnder_of_isJunction_eq_false hk]
      simp only [List.mem_singleton, exists_eq_left]

theorem eraseNext_join {k : Connective} {fs : List Formula} (hfs : ∀ f ∈ fs, f.IsValid) :
    (join k fs).eraseNext = join k (fs.map eraseNext) := by
  have hoperands : (join k fs).eraseNext = join k ((joinOperands k fs).map eraseNext) := by
    rcases join_cases (k := k) hfs with ⟨hnil, hjoin⟩ | ⟨f, hsingle, hjoin⟩ | ⟨hjoin, _⟩
    · rw [hnil, hjoin]
      rfl
    · rw [hsingle, hjoin, List.map_singleton, join_singleton k (isValid_eraseNext f)]
    · rw [hjoin, eraseNext_junction]
  rw [hoperands]
  apply join_congr
  intro g
  simp only [List.mem_map, exists_exists_and_eq_and]
  constructor
  · rintro ⟨h, hh, hg⟩
    rcases mem_joinOperands.mp hh with ⟨f, hf, hhf⟩
    exact ⟨f, hf, (mem_operandsUnder_eraseNext (hfs f hf)).mpr ⟨h, hhf, hg⟩⟩
  · rintro ⟨f, hf, hg⟩
    rcases (mem_operandsUnder_eraseNext (hfs f hf)).mp hg with ⟨h, hh, hgh⟩
    exact ⟨h, mem_joinOperands.mpr ⟨f, hf, hh⟩, hgh⟩

/-!
## The formula that is left over

The law that moves `next` leaves it as it is, and so does a run.
-/

theorem isCongruence_eraseNext :
    IsCongruence (fun f g => f.IsValid → g.IsValid ∧ g.eraseNext = f.eraseNext) := by
  refine isCongruence_ofValid (fun _ => rfl) ?_ ?_ ?_
  · intro op f g hop _ _ h
    cases hop with
    | not => exact congrArg not h
    | next => exact h
    | always => exact congrArg always h
    | eventually => exact congrArg eventually h
  · intro op f f' g g' hop _ _ h h'
    cases hop with
    | untl => exact congrArg₂ untl h h'
    | release => exact congrArg₂ release h h'
  · intro k fs change _ hvalid hchange
    calc (join k (fs.map change)).eraseNext
        = join k ((fs.map change).map eraseNext) := eraseNext_join (List.forall_mem_map.mpr hvalid)
      _ = join k (fs.map eraseNext) := by
          rw [List.map_map]
          exact congrArg (join k) (List.map_congr_left hchange)
      _ = (junction k fs).eraseNext := (eraseNext_junction k fs).symm

end Formula

open Formula

namespace Rule

theorem NextStep.eraseNext_eq {f g : Formula} (h : NextStep f g) (hf : f.IsValid) :
    g.eraseNext = f.eraseNext := by
  cases h with
  | not | always | eventually | untl | release => rfl
  | junction k bodies =>
      have hvalid : ∀ body ∈ bodies, body.IsValid := by
        intro body hbody
        have hnext : body.next.IsValid := hf.of_mem (List.mem_map_of_mem hbody)
        exact hnext
      calc (join k bodies).eraseNext
          = join k (bodies.map eraseNext) := eraseNext_join hvalid
        _ = join k ((bodies.map Formula.next).map eraseNext) := by
            rw [List.map_map]
            rfl
        _ = (Formula.junction k (bodies.map Formula.next)).eraseNext :=
            (eraseNext_junction k _).symm

end Rule

namespace Simplification

theorem respects_eraseNext : Respects Strategy.pullNext.rules
    (fun f g => f.IsValid → g.IsValid ∧ g.eraseNext = f.eraseNext) where
  congruence := isCongruence_eraseNext
  trans := by
    intro f g h hfg hgh hf
    rcases hfg hf with ⟨hg, heq⟩
    rcases hgh hg with ⟨hh, heq'⟩
    exact ⟨hh, heq'.trans heq⟩
  fire := by
    intro rule f g hrule happly hf
    have hstep := Rule.NextStep.of_mem hrule (Rule.transform_of_apply happly)
    exact ⟨hstep.isValid hf, hstep.eraseNext_eq hf⟩

end Simplification

namespace Simplifier

/-- Moving `next` changes nothing but where `next` stands. -/
theorem run_keeps_rest {maxPasses : Nat} {f : Formula} (hf : f.IsValid) :
    (run ⟨.pullNext, maxPasses⟩ f).1.eraseNext = f.eraseNext :=
  (Simplification.respects_eraseNext.run (s := ⟨.pullNext, maxPasses⟩) f hf).2

/-- `G X p` becomes `X G p`, which is dropped beside the other one, and once `next` is moved out
of the disjunction, `p | q` is flattened into it. -/
theorem run_keeps_rest_flattened :
    (Formula.junction .or [.next (.always (.literal "p" false)),
        .next (.junction .or [.literal "p" false, .literal "q" false]),
        .always (.next (.literal "p" false))]).IsValid ∧
      (run ⟨.pullNext, 1⟩ (Formula.junction .or [.next (.always (.literal "p" false)),
        .next (.junction .or [.literal "p" false, .literal "q" false]),
        .always (.next (.literal "p" false))])).1.eraseNext =
        (Formula.junction .or [.next (.always (.literal "p" false)),
          .next (.junction .or [.literal "p" false, .literal "q" false]),
          .always (.next (.literal "p" false))]).eraseNext :=
  ⟨rfl, run_keeps_rest rfl⟩

end Simplifier

end LinearTemporal

import Mathlib.Logic.Function.Basic
import LinearTemporal.Proofs.BoundedWords
import LinearTemporal.Proofs.LassoEvaluation
import LinearTemporal.Proofs.RelevantNames
import LinearTemporal.Verification

/-!
# What verification decides

Verification accepts two formulas exactly if no word of the bounded set tells them apart, and
what it reports otherwise is such a word.  The words that it runs through assign the variables
of the two formulas and no others.  A word of the bounded set may say more in its states, but
nothing that the formulas look at: it agrees with one of those words on their names.
-/

namespace LinearTemporal

/-!
## States with values assigned to them

Assigning values to names one after the other changes no proposition, and gives each of
the names its own value if they are different.
-/

def tabulate (valuation : String → Int64) (names : List String) : List (String × Int64) :=
  names.map (fun name => (name, valuation name))

namespace State

theorem assignAll_cons (s : State) (name : String) (value : Int64)
    (rest : List (String × Int64)) :
    s.assignAll ((name, value) :: rest) = (s.assign name value).assignAll rest :=
  rfl

theorem mem_keys_assign {s : State} {name key : String} {value : Int64} :
    key ∈ (s.assign name value).values.keys ↔ key = name ∨ key ∈ s.values.keys :=
  OrderedMap.mem_keys_insert

theorem value_assign (s : State) (name key : String) (value : Int64) :
    (s.assign name value).value key = if key == name then value else s.value key :=
  OrderedMap.getD_insert name key value 0 s.values

theorem propositions_assignAll (s : State) (assignment : List (String × Int64)) :
    (s.assignAll assignment).propositions = s.propositions := by
  induction assignment generalizing s with
  | nil => rfl
  | cons entry rest ih => exact ih (s.assign entry.1 entry.2)

theorem mem_keys_assignAll {s : State} {assignment : List (String × Int64)} {key : String} :
    key ∈ (s.assignAll assignment).values.keys ↔
      key ∈ s.values.keys ∨ key ∈ assignment.map Prod.fst := by
  induction assignment generalizing s with
  | nil => simp [assignAll]
  | cons entry rest ih =>
      rw [assignAll_cons, ih, mem_keys_assign, List.map_cons, List.mem_cons, or_assoc,
        or_left_comm]

theorem value_assignAll_tabulate (s : State) (valuation : String → Int64) (names : List String)
    (key : String) :
    (s.assignAll (tabulate valuation names)).value key =
      if key ∈ names then valuation key else s.value key := by
  induction names generalizing s with
  | nil => rfl
  | cons first rest ih =>
      rw [tabulate, List.map_cons, assignAll_cons]
      refine (ih (s.assign first (valuation first))).trans ?_
      rw [value_assign]
      grind

end State

namespace Formula

/-!
## Words that agree on the names of a formula

Agreement of the states suffices for the whole word.
-/

theorem holds_congr_of_agreeOn {f : Formula} {word word' : Nat → State}
    (h : ∀ i, (word i).AgreeOn f (word' i)) (i : Nat) : f.Holds word i ↔ f.Holds word' i := by
  induction f using induction_on_children generalizing i with
  | step f ih =>
      have hpart : ∀ g ∈ f.children, ∀ i, g.Holds word i ↔ g.Holds word' i :=
        fun g hg => ih g hg fun j => (h j).part hg
      cases f with
      | const value => exact Iff.rfl
      | literal name negated => rw [holds_literal, holds_literal, (h i).holds_literal]
      | atom left op right => rw [holds_atom, holds_atom, (h i).holds_atom]
      | not body | next body | always body | eventually body =>
          simp only [holds_not, holds_next, holds_always, holds_eventually,
            hpart body (by simp [children])]
      | untl left right | release left right =>
          simp only [holds_untl, holds_release, hpart left (by simp [children]),
            hpart right (by simp [children])]
      | junction k fs =>
          cases k with
          | and =>
              rw [holds_and, holds_and]
              exact forall₂_congr fun g hg => hpart g hg i
          | or =>
              rw [holds_or, holds_or]
              exact exists_congr fun g => and_congr_right fun hg => hpart g hg i

end Formula

namespace Lasso

theorem word_map (w : Lasso) (change : State → State) (i : Nat) :
    (w.map change).word i = change (w.word i) := by
  simp only [word, map, List.length_map, List.getElem_map, List.get_eq_getElem]
  split
  · rfl
  · rfl

theorem word_mem_states (w : Lasso) (i : Nat) : w.word i ∈ w.states := by
  unfold word states
  split
  · exact List.mem_append_left _ (List.getElem_mem _)
  · exact List.mem_append_right _ (List.get_mem _ _)

theorem satisfies_iff {w : Lasso} {f : Formula} : w.satisfies f = true ↔ f.Holds w.word 0 := by
  have hlocate : w.locate 0 = 0 := if_pos w.length_pos
  rw [satisfies, holdsAt, hlocate, getD_evaluate f w.length_pos]

theorem states_map (w : Lasso) (change : State → State) :
    (w.map change).states = w.states.map change :=
  List.map_append.symm

end Lasso

namespace Verification

/-!
## The words that are run through

They are of the bounded set and assign no other variable.  Every word of the set agrees
with one of them, whatever formula over the names is asked about.
-/

theorem mem_assignments_iff {values : List Int64} {names : List String} (hnames : names.Nodup)
    {assignment : List (String × Int64)} :
    assignment ∈ assignments values names ↔
      ∃ valuation : String → Int64,
        (∀ name ∈ names, valuation name ∈ values) ∧ assignment = tabulate valuation names := by
  induction names generalizing assignment with
  | nil => simp [assignments, tabulate]
  | cons first rest ih =>
      rcases List.nodup_cons.mp hnames with ⟨hfirst, hrest⟩
      simp only [assignments, List.mem_flatMap, List.mem_map, ih hrest]
      constructor
      · rintro ⟨value, hvalue, _, ⟨valuation, hvaluation, rfl⟩, rfl⟩
        have hsame : ∀ name ∈ rest, Function.update valuation first value name = valuation name :=
          fun name hname => Function.update_of_ne (ne_of_mem_of_not_mem hname hfirst) _ _
        refine ⟨Function.update valuation first value, ?_, ?_⟩
        · rw [List.forall_mem_cons, Function.update_self]
          exact ⟨hvalue, fun name hname => hsame name hname ▸ hvaluation name hname⟩
        · rw [tabulate, tabulate, List.map_cons, Function.update_self]
          refine congrArg (_ :: ·) (List.map_congr_left fun name hname => ?_)
          rw [hsame name hname]
      · rintro ⟨valuation, hvaluation, rfl⟩
        rw [List.forall_mem_cons] at hvaluation
        exact ⟨valuation first, hvaluation.1, _, ⟨valuation, hvaluation.2, rfl⟩, rfl⟩

/-- A word of the bounded set over the given names: a stem of at most one state, a short cycle,
no other proposition true in any state, and one small value for each variable throughout. -/
structure IsBoundedWord (propositions integerVariables : List String) (w : Lasso) : Prop where
  stem : w.stem.length ≤ 1
  cycle : w.cycle.length ≤ if propositions.length ≤ 3 then 2 else 1
  propositions : ∀ s ∈ w.states, ∀ name ∈ s.propositions.toList, name ∈ propositions
  values : ∀ name ∈ integerVariables, ∃ value : Int64,
    -2 ≤ value.toInt ∧ value.toInt ≤ 2 ∧ ∀ s ∈ w.states, s.value name = value

theorem mem_variableValues_iff {value : Int64} :
    value ∈ variableValues ↔ -2 ≤ value.toInt ∧ value.toInt ≤ 2 := by
  constructor
  · simp only [variableValues, List.mem_cons, List.not_mem_nil, or_false]
    rintro (rfl | rfl | rfl | rfl | rfl) <;> decide
  · rintro ⟨hmin, hmax⟩
    have hcases : value.toInt = -2 ∨ value.toInt = -1 ∨ value.toInt = 0 ∨ value.toInt = 1 ∨
        value.toInt = 2 := by omega
    rw [← Int64.ofInt_toInt value]
    rcases hcases with h | h | h | h | h <;> rw [h] <;> decide

section

variable {propositions integerVariables : List String}

theorem mem_words_iff (hvariables : integerVariables.Nodup) {w : Lasso} :
    w ∈ words propositions integerVariables ↔
      ∃ valuation : String → Int64,
        (∀ name ∈ integerVariables, valuation name ∈ variableValues) ∧
          ∃ bare ∈ Lasso.bounded propositions 1 (cycleBound propositions.length),
            bare.map (fun s => s.assignAll (tabulate valuation integerVariables)) = w := by
  simp only [words, List.mem_flatMap, List.mem_map, mem_assignments_iff hvariables]
  constructor
  · rintro ⟨_, ⟨valuation, hvaluation, rfl⟩, hbare⟩
    exact ⟨valuation, hvaluation, hbare⟩
  · rintro ⟨valuation, hvaluation, hbare⟩
    exact ⟨_, ⟨valuation, hvaluation, rfl⟩, hbare⟩

theorem max_cycleBound (count : Nat) :
    max (cycleBound count) 1 = if count ≤ 3 then 2 else 1 := by
  unfold cycleBound
  split <;> rfl

theorem isBoundedWord_of_mem_words (hvariables : integerVariables.Nodup) {w : Lasso}
    (h : w ∈ words propositions integerVariables) :
    IsBoundedWord propositions integerVariables w ∧
      ∀ s ∈ w.states, ∀ name, name ∈ s.values.keys ↔ name ∈ integerVariables := by
  rcases (mem_words_iff hvariables).mp h with ⟨valuation, hvaluation, bare, hbare, rfl⟩
  rcases Lasso.mem_bounded_iff.mp hbare with ⟨hstem, _, hcycle, hstates⟩
  rw [max_cycleBound] at hcycle
  rw [Lasso.states_map, List.forall_mem_map]
  constructor
  · constructor
    · exact (List.length_map _).trans_le hstem
    · exact (List.length_map _).trans_le hcycle
    · rw [Lasso.states_map, List.forall_mem_map]
      intro s hs
      rw [State.propositions_assignAll]
      exact (hstates s hs).propositions
    · intro name hname
      rcases mem_variableValues_iff.mp (hvaluation name hname) with ⟨hmin, hmax⟩
      refine ⟨valuation name, hmin, hmax, ?_⟩
      rw [Lasso.states_map, List.forall_mem_map]
      intro s _
      rw [State.value_assignAll_tabulate, if_pos hname]
  · intro s hs name
    rw [State.mem_keys_assignAll, (hstates s hs).values]
    simp [OrderedMap.keys, OrderedMap.empty, tabulate]

theorem exists_mem_words (hvariables : integerVariables.Nodup) {w : Lasso}
    (h : IsBoundedWord propositions integerVariables w) :
    ∃ w' ∈ words propositions integerVariables, ∀ f : Formula,
      (∀ name ∈ f.integerVariables.toList, name ∈ integerVariables) →
        w.satisfies f = w'.satisfies f := by
  let bare : State → State := fun s => ⟨s.propositions, OrderedMap.empty⟩
  let valuation : String → Int64 := (w.word 0).value
  let complete : State → State := fun s => s.assignAll (tabulate valuation integerVariables)
  have hfirst := w.word_mem_states 0
  refine ⟨(w.map bare).map complete, ?_, ?_⟩
  · refine (mem_words_iff hvariables).mpr ⟨valuation, ?_, w.map bare, ?_, rfl⟩
    · intro name hname
      rcases h.values name hname with ⟨value, hmin, hmax, hvalue⟩
      rw [mem_variableValues_iff, show valuation name = value from hvalue _ hfirst]
      exact ⟨hmin, hmax⟩
    · rw [Lasso.mem_bounded_iff, Lasso.states_map, List.forall_mem_map, max_cycleBound]
      refine ⟨(List.length_map _).trans_le h.stem, ?_, (List.length_map _).trans_le h.cycle, ?_⟩
      · exact (w.map bare).cycle_length_pos
      · exact fun s hs => ⟨rfl, h.propositions s hs⟩
  · intro f hf
    rw [Bool.eq_iff_iff, Lasso.satisfies_iff, Lasso.satisfies_iff]
    apply Formula.holds_congr_of_agreeOn
    intro i
    rw [Lasso.word_map, Lasso.word_map]
    constructor
    · intro name _
      rw [State.holds, State.holds, State.propositions_assignAll]
    · intro name hname
      rcases h.values name (hf name hname) with ⟨value, _, _, hvalue⟩
      rw [State.value_assignAll_tabulate, if_pos (hf name hname)]
      exact (hvalue _ (w.word_mem_states i)).trans (hvalue _ hfirst).symm

end

/-!
## Verification

Within the limits, verification either finds a word that tells the formulas apart or has
run through all words without finding one.
-/

section

variable {before after : Formula}
  (hpropositions : (before.propositions.union after.propositions).size ≤ maxPropositions)
  (hvariables : (before.integerVariables.union after.integerVariables).size ≤ maxVariables)

include hpropositions hvariables

theorem verify_cases :
    let candidates := words (before.propositions.union after.propositions).toList
      (before.integerVariables.union after.integerVariables).toList
    (∃ w ∈ candidates, verify before after = .error (.differ before after w) ∧
        w.satisfies before ≠ w.satisfies after) ∨
      (verify before after = .ok candidates.length ∧
        ∀ w ∈ candidates, w.satisfies before = w.satisfies after) := by
  intro candidates
  cases hfound : Lasso.findDisagreement before after candidates with
  | some w =>
      have hdiffer : w.distinguishes before after = true :=
        List.find?_some (p := fun w : Lasso => w.distinguishes before after) hfound
      refine Or.inl ⟨w, List.mem_of_find?_eq_some hfound, ?_, bne_iff_ne.mp hdiffer⟩
      simp only [verify, if_neg (Nat.not_lt.mpr hpropositions), if_neg (Nat.not_lt.mpr hvariables)]
      rw [hfound]
  | none =>
      refine Or.inr ⟨?_, fun w hw => ?_⟩
      · simp only [verify, if_neg (Nat.not_lt.mpr hpropositions),
          if_neg (Nat.not_lt.mpr hvariables)]
        rw [hfound]
      · have hsame := List.find?_eq_none.mp hfound w hw
        simpa [Lasso.distinguishes] using hsame

end

/-- Verification decides whether two formulas have the same value at the first position of all
words of the bounded set, and a failure shows a word on which they differ.  With more names than
it supports it always fails. -/
theorem verify_decides (before after : Formula) :
    let propositions := before.propositions.union after.propositions
    let integerVariables := before.integerVariables.union after.integerVariables
    (propositions.size ≤ 6 → integerVariables.size ≤ 2 →
      ((∃ count, verify before after = .ok count) ↔
        ∀ w, IsBoundedWord propositions.toList integerVariables.toList w →
          w.holdsAt before 0 = w.holdsAt after 0) ∧
      ∀ failure, verify before after = .error failure →
        ∃ w, failure = .differ before after w ∧
          IsBoundedWord propositions.toList integerVariables.toList w ∧
          (∀ s ∈ w.states, ∀ name, name ∈ s.values.keys ↔ name ∈ integerVariables.toList) ∧
          w.holdsAt before 0 ≠ w.holdsAt after 0) ∧
    (6 < propositions.size ∨ 2 < integerVariables.size →
      ∃ failure, verify before after = .error failure) := by
  intro propositions integerVariables
  have hnodup : integerVariables.toList.Nodup := integerVariables.ascending.nodup
  refine ⟨?_, ?_⟩
  · intro hpropositions hvariables
    rcases verify_cases hpropositions hvariables with ⟨w, hw, herror, hdiffer⟩ | ⟨hok, hsame⟩
    · rcases isBoundedWord_of_mem_words hnodup hw with ⟨hbounded, hkeys⟩
      rw [herror]
      refine ⟨⟨?_, fun h => absurd (h w hbounded) hdiffer⟩, ?_⟩
      · rintro ⟨count, hcount⟩
        cases hcount
      · intro failure hfailure
        cases hfailure
        exact ⟨w, rfl, hbounded, hkeys, hdiffer⟩
    · rw [hok]
      refine ⟨⟨?_, fun _ => ⟨_, rfl⟩⟩, nofun⟩
      intro _ w hbounded
      rcases exists_mem_words hnodup hbounded with ⟨w', hw', hagree⟩
      calc w.satisfies before
          = w'.satisfies before := hagree before fun name h => OrderedSet.mem_union.mpr (Or.inl h)
        _ = w'.satisfies after := hsame w' hw'
        _ = w.satisfies after :=
            (hagree after fun name h => OrderedSet.mem_union.mpr (Or.inr h)).symm
  · intro hmany
    unfold verify
    by_cases hpropositions : maxPropositions < propositions.size
    · exact ⟨_, if_pos hpropositions⟩
    · have hvariables : maxVariables < integerVariables.size := hmany.resolve_left hpropositions
      exact ⟨_, (if_neg hpropositions).trans (if_pos hvariables)⟩

/-- Two bounds on a variable that differ for the value one: verification fails, and what it shows
is a word on which the formulas differ. -/
theorem verify_decides_bounds :
    let before : Formula := .untl (.literal "p" false) (.atom (.var "x") .lt (.int 1))
    let after : Formula := .atom (.var "x") .lt (.int 2)
    (before.propositions.union after.propositions).size ≤ 6 ∧
    (before.integerVariables.union after.integerVariables).size ≤ 2 ∧
    ∃ w, verify before after = .error (.differ before after w) ∧
      IsBoundedWord ["p"] ["x"] w ∧ w.holdsAt before 0 ≠ w.holdsAt after 0 := by
  intro before after
  have hpropositions : (before.propositions.union after.propositions).size ≤ 6 := by decide
  have hvariables : (before.integerVariables.union after.integerVariables).size ≤ 2 := by decide
  rcases (verify_decides before after).1 hpropositions hvariables with ⟨hok, hfailure⟩
  have hword : IsBoundedWord ["p"] ["x"] (.constant ((State.ofPropositions []).assign "x" 1)) :=
    { stem := by decide
      cycle := by decide
      propositions := by decide
      values := by
        intro name hname
        rw [List.mem_singleton.mp hname]
        exact ⟨1, by decide, by decide, by decide⟩ }
  refine ⟨hpropositions, hvariables, ?_⟩
  cases hverify : verify before after with
  | ok count => exact absurd (hok.mp ⟨count, hverify⟩ _ hword) (by decide)
  | error failure =>
      rcases hfailure failure hverify with ⟨w, rfl, hbounded, _, hdiffer⟩
      exact ⟨w, rfl, hbounded, hdiffer⟩

end Verification
end LinearTemporal

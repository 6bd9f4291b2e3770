import Mathlib.Algebra.BigOperators.Group.Finset.Basic
import Mathlib.Algebra.BigOperators.Intervals
import Mathlib.Algebra.Order.Ring.Nat
import Mathlib.Data.List.Sublists
import LinearTemporal.Word.Enumeration

/-!
# The bounded words

The enumeration of lassos over given propositions is exact: it lists the lassos within its
bounds whose states assign no variable and make no other proposition true, each of them once.
It is nested, the propositions of a state inside the states of a stem or a cycle inside their
lengths, and for each layer there are three facts: what its members are, that they differ, and
how many there are.
-/

namespace LinearTemporal

theorem nodup_flatMap_of_unique {α β : Type} {xs : List α} {piece : α → List β}
    (hxs : xs.Nodup) (hpiece : ∀ x ∈ xs, (piece x).Nodup)
    (hunique : ∀ x x' y, y ∈ piece x → y ∈ piece x' → x = x') : (xs.flatMap piece).Nodup := by
  refine List.nodup_flatMap.mpr ⟨hpiece, List.Pairwise.imp ?_ hxs⟩
  intro x x' hne y hy hy'
  exact hne (hunique x x' y hy hy')

/-!
## Sets of propositions

Over different names a sublist is determined by the state that it makes, and a state by
which of the names hold in it.
-/

theorem sublists_eq (names : List String) : sublists names = names.sublists := by
  induction names with
  | nil => rfl
  | cons name names ih => rw [sublists, ih, List.sublists_cons, List.bind_eq_flatMap]

theorem length_sublists (names : List String) : (sublists names).length = 2 ^ names.length := by
  rw [sublists_eq, List.length_sublists]

namespace State

/-- The state assigns no variable, and only propositions of the list are true in it. -/
structure IsOver (names : List String) (s : State) : Prop where
  values : s.values = OrderedMap.empty
  propositions : ∀ name ∈ s.propositions.toList, name ∈ names

theorem holds_iff {s : State} {name : String} :
    s.holds name = true ↔ name ∈ s.propositions.toList := by
  simp [holds, OrderedSet.contains]

theorem holds_ofPropositions {names : List String} {name : String} :
    (ofPropositions names).holds name = true ↔ name ∈ names := by
  rw [holds_iff]
  exact OrderedSet.mem_ofList

variable {names : List String}

theorem ofPropositions_filter {s : State} (h : s.IsOver names) :
    ofPropositions (names.filter s.holds) = s := by
  have hpropositions : OrderedSet.ofList (names.filter s.holds) = s.propositions := by
    apply OrderedSet.ext
    intro name
    rw [OrderedSet.mem_ofList, List.mem_filter, holds_iff]
    exact and_iff_right_of_imp (h.propositions name)
  calc ofPropositions (names.filter s.holds)
      = ⟨s.propositions, OrderedMap.empty⟩ := by rw [ofPropositions, hpropositions]
    _ = s := by rw [← h.values]

theorem filter_holds_ofPropositions (hnames : names.Nodup) {chosen : List String}
    (h : chosen.Sublist names) : names.filter (ofPropositions chosen).holds = chosen := by
  have hkept : chosen.filter (ofPropositions chosen).holds = chosen :=
    List.filter_eq_self.mpr fun name hname => holds_ofPropositions.mpr hname
  have hsublist : chosen.Sublist (names.filter (ofPropositions chosen).holds) := by
    have hfiltered := h.filter (ofPropositions chosen).holds
    rwa [hkept] at hfiltered
  have hsubset : names.filter (ofPropositions chosen).holds ⊆ chosen :=
    fun name hname => holds_ofPropositions.mp (List.mem_filter.mp hname).2
  -- What is kept contains `chosen` in order and no other name; as no name comes twice, it is
  -- not longer either.
  exact (hsublist.eq_of_length_le ((hnames.filter _).subperm hsubset).length_le).symm

theorem mem_map_ofPropositions_iff {s : State} :
    s ∈ (sublists names).map ofPropositions ↔ s.IsOver names := by
  rw [sublists_eq, List.mem_map]
  constructor
  · rintro ⟨chosen, hchosen, rfl⟩
    refine ⟨rfl, fun name hname => ?_⟩
    exact (List.mem_sublists.mp hchosen).subset (OrderedSet.mem_ofList.mp hname)
  · intro h
    exact ⟨names.filter s.holds, List.mem_sublists.mpr List.filter_sublist, ofPropositions_filter h⟩

theorem nodup_map_ofPropositions (hnames : names.Nodup) :
    ((sublists names).map ofPropositions).Nodup := by
  rw [sublists_eq]
  apply List.Nodup.map_on _ (List.nodup_sublists.mpr hnames)
  intro chosen hchosen chosen' hchosen' hsame
  rw [← filter_holds_ofPropositions hnames (List.mem_sublists.mp hchosen), hsame,
    filter_holds_ofPropositions hnames (List.mem_sublists.mp hchosen')]

end State

/-!
## Sequences of states

There are as many sequences of a length as that power of the number of states.
-/

theorem mem_sequences_iff {α : Type} {alphabet : List α} {n : Nat} {xs : List α} :
    xs ∈ sequences alphabet n ↔ xs.length = n ∧ ∀ x ∈ xs, x ∈ alphabet := by
  induction n generalizing xs with
  | zero =>
      rw [sequences, List.mem_singleton, List.length_eq_zero_iff]
      constructor
      · rintro rfl
        exact ⟨rfl, fun x hx => absurd hx List.not_mem_nil⟩
      · exact And.left
  | succ n ih =>
      simp only [sequences, List.mem_flatMap, List.mem_map, ih]
      constructor
      · rintro ⟨x, hx, rest, ⟨hlength, hrest⟩, rfl⟩
        exact ⟨congrArg (· + 1) hlength, List.forall_mem_cons.mpr ⟨hx, hrest⟩⟩
      · rintro ⟨hlength, hxs⟩
        cases xs with
        | nil => cases hlength
        | cons x rest =>
            rw [List.forall_mem_cons] at hxs
            exact ⟨x, hxs.1, rest, ⟨Nat.succ.inj hlength, hxs.2⟩, rfl⟩

theorem nodup_sequences {α : Type} {alphabet : List α} (h : alphabet.Nodup) (n : Nat) :
    (sequences alphabet n).Nodup := by
  induction n with
  | zero => exact List.nodup_singleton []
  | succ n ih =>
      apply nodup_flatMap_of_unique h
      · intro x _
        exact ih.map (List.cons_injective)
      · intro x x' xs hxs hxs'
        rcases List.mem_map.mp hxs with ⟨rest, _, rfl⟩
        rcases List.mem_map.mp hxs' with ⟨rest', _, hsame⟩
        exact (List.cons.inj hsame).1.symm

theorem length_sequences {α : Type} (alphabet : List α) (n : Nat) :
    (sequences alphabet n).length = alphabet.length ^ n := by
  induction n with
  | zero => rfl
  | succ n ih =>
      rw [sequences, List.length_flatMap, Nat.pow_succ']
      simp [ih]

namespace Lasso

/-!
## Lassos of given lengths

A stem and a cycle are taken independently of each other.
-/

section

variable {alphabet : List State} {stem cycle : Nat}

theorem mem_ofLengths_iff {w : Lasso} :
    w ∈ ofLengths alphabet stem cycle ↔
      w.stem.length = stem ∧ w.cycle.length = cycle + 1 ∧ ∀ s ∈ w.states, s ∈ alphabet := by
  simp only [ofLengths, List.mem_flatMap, List.mem_map, mem_sequences_iff, states,
    List.forall_mem_append]
  constructor
  · rintro ⟨front, ⟨hstem, hfront⟩, first, hfirst, rest, ⟨hcycle, hrest⟩, rfl⟩
    exact ⟨hstem, congrArg (· + 1) hcycle, hfront, List.forall_mem_cons.mpr ⟨hfirst, hrest⟩⟩
  · rcases w with ⟨front, round, hround⟩
    rintro ⟨hstem, hcycle, hfront, hstates⟩
    cases round with
    | nil => cases hcycle
    | cons first rest =>
        rw [List.forall_mem_cons] at hstates
        exact ⟨front, ⟨hstem, hfront⟩, first, hstates.1, rest,
          ⟨Nat.succ.inj hcycle, hstates.2⟩, rfl⟩

theorem nodup_ofLengths (h : alphabet.Nodup) : (ofLengths alphabet stem cycle).Nodup := by
  apply nodup_flatMap_of_unique (nodup_sequences h stem)
  · intro front _
    apply nodup_flatMap_of_unique h
    · intro first _
      apply (nodup_sequences h cycle).map
      intro rest rest' hsame
      exact (List.cons.inj (congrArg Lasso.cycle hsame)).2
    · intro first first' w hw hw'
      rcases List.mem_map.mp hw with ⟨rest, _, rfl⟩
      rcases List.mem_map.mp hw' with ⟨rest', _, hsame⟩
      exact (List.cons.inj (congrArg Lasso.cycle hsame)).1.symm
  · intro front front' w hw hw'
    simp only [List.mem_flatMap, List.mem_map] at hw hw'
    rcases hw with ⟨first, _, rest, _, rfl⟩
    rcases hw' with ⟨first', _, rest', _, hsame⟩
    exact (congrArg Lasso.stem hsame).symm

end

theorem length_ofLengths (alphabet : List State) (stem cycle : Nat) :
    (ofLengths alphabet stem cycle).length = alphabet.length ^ (stem + (cycle + 1)) := by
  rw [ofLengths, List.length_flatMap, Nat.pow_add, Nat.pow_succ', ← length_sequences alphabet stem,
    ← length_sequences alphabet cycle]
  simp

/-!
## All bounded lassos

Different lengths give different lassos, so the counts add up: every length of the stem
and every length of the cycle gives a power of the number of states.
-/

variable {names : List String} {maxStem maxCycle : Nat}

theorem mem_bounded_iff {w : Lasso} :
    w ∈ bounded names maxStem maxCycle ↔
      w.stem.length ≤ maxStem ∧ 1 ≤ w.cycle.length ∧ w.cycle.length ≤ max maxCycle 1 ∧
        ∀ s ∈ w.states, s.IsOver names := by
  have hpos : 1 ≤ w.cycle.length := List.length_pos_iff.mpr w.cycle_ne_nil
  simp only [bounded, List.mem_flatMap, List.mem_range, mem_ofLengths_iff,
    State.mem_map_ofPropositions_iff]
  constructor
  · rintro ⟨stem, hstem, cycle, hcycle, hstemlength, hcyclelength, hstates⟩
    exact ⟨by omega, hpos, by omega, hstates⟩
  · rintro ⟨hstem, _, hcycle, hstates⟩
    exact ⟨w.stem.length, by omega, w.cycle.length - 1, by omega, rfl, by omega, hstates⟩

theorem nodup_bounded (hnames : names.Nodup) : (bounded names maxStem maxCycle).Nodup := by
  have halphabet := State.nodup_map_ofPropositions hnames
  -- A lasso shows the two lengths that it is listed under.
  apply nodup_flatMap_of_unique List.nodup_range
  · intro stem _
    apply nodup_flatMap_of_unique List.nodup_range
    · intro cycle _
      exact nodup_ofLengths halphabet
    · intro cycle cycle' w hw hw'
      have hlength := (mem_ofLengths_iff.mp hw).2.1
      rw [(mem_ofLengths_iff.mp hw').2.1] at hlength
      exact (Nat.succ.inj hlength).symm
  · intro stem stem' w hw hw'
    rcases List.mem_flatMap.mp hw with ⟨_, _, hstem⟩
    rcases List.mem_flatMap.mp hw' with ⟨_, _, hstem'⟩
    exact (mem_ofLengths_iff.mp hstem).1.symm.trans (mem_ofLengths_iff.mp hstem').1

theorem length_flatMap_range {α : Type} (n : Nat) (g : Nat → List α) :
    ((List.range n).flatMap g).length = ∑ i ∈ Finset.range n, (g i).length := by
  induction n with
  | zero => rfl
  | succ n ih =>
      rw [List.range_succ, List.flatMap_append, List.length_append, ih, List.flatMap_singleton,
        Finset.sum_range_succ]

theorem length_bounded_max (names : List String) (maxStem maxCycle : Nat) :
    (bounded names maxStem maxCycle).length =
      ∑ stem ∈ Finset.range (maxStem + 1), ∑ cycle ∈ Finset.Icc 1 (max maxCycle 1),
        (2 ^ names.length) ^ (stem + cycle) := by
  rw [bounded, length_flatMap_range]
  apply Finset.sum_congr rfl
  intro stem _
  rw [length_flatMap_range, ← Finset.Ico_add_one_right_eq_Icc, Finset.sum_Ico_eq_sum_range,
    Nat.add_sub_cancel]
  apply Finset.sum_congr rfl
  intro cycle _
  rw [length_ofLengths, List.length_map, length_sublists, Nat.add_comm 1 cycle]

/-- Over different names, `bounded` lists exactly the lassos within its bounds, each once, and
as many as the lengths and the sets of names allow. -/
theorem bounded_enumerates (hnames : names.Nodup) (maxStem maxCycle : Nat) :
    (∀ w : Lasso, w ∈ bounded names maxStem maxCycle ↔
      w.stem.length ≤ maxStem ∧ 1 ≤ w.cycle.length ∧ w.cycle.length ≤ max maxCycle 1 ∧
        ∀ s ∈ w.states, s.IsOver names) ∧
    (bounded names maxStem maxCycle).Nodup ∧
    (bounded names maxStem maxCycle).length =
      ∑ stem ∈ Finset.range (maxStem + 1), ∑ cycle ∈ Finset.Icc 1 (max maxCycle 1),
        (2 ^ names.length) ^ (stem + cycle) :=
  ⟨fun _ => mem_bounded_iff, nodup_bounded hnames, length_bounded_max names maxStem maxCycle⟩

theorem bounded_enumerates_pair :
    let words := bounded ["p", "q"] 1 2
    ["p", "q"].Nodup ∧
    (∀ w : Lasso, w ∈ words ↔
      w.stem.length ≤ 1 ∧ 1 ≤ w.cycle.length ∧ w.cycle.length ≤ 2 ∧
        ∀ s ∈ w.states, s.IsOver ["p", "q"]) ∧
    words.Nodup ∧ words.length = 4 + 4 ^ 2 + (4 ^ 2 + 4 ^ 3) := by
  intro words
  have hnames : ["p", "q"].Nodup := by decide
  exact ⟨hnames, bounded_enumerates hnames 1 2⟩

end Lasso
end LinearTemporal

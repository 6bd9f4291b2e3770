import LinearTemporal.Batch

/-!
# The records of a batch

A batch that does not stop at failures has one record for each line that holds a formula, an entry
or a failure, and each record says what becomes of its own line.  A batch that stops has the same
records up to the first failure, so what it skips is what remains of the lines.

Lines are described by where they stand in the text: between two line feeds, or the ends of the
text, with their number counted by the line feeds before them.
-/

namespace LinearTemporal

namespace Text

/-!
## Lines of a text

A line feed at the very end has no line after it.  What stands before a later line keeps
its shape when the first line grows, so lines are found from the start.
-/

/-- The line with this number, counted from one: a piece without line feeds, between line feeds or
the ends of the text.  A line feed at the very end has no line after it. -/
def IsLine (cs : List Char) (number : Nat) (line : List Char) : Prop :=
  ∃ before after, cs = before ++ (line ++ after) ∧ '\n' ∉ line ∧
    (before = [] ∨ ∃ front, before = front ++ ['\n']) ∧
    (after = [] ∨ ∃ rest, after = '\n' :: rest) ∧
    line ++ after ≠ [] ∧ number = before.count '\n' + 1

variable {cs before line after : List Char}

theorem splitLines_feed (cs : List Char) : splitLines ('\n' :: cs) = [] :: splitLines cs :=
  rfl

theorem splitLines_cons {c : Char} (hc : c ≠ '\n') {first : List Char} {rest : List (List Char)}
    (h : splitLines cs = first :: rest) : splitLines (c :: cs) = (c :: first) :: rest := by
  rw [splitLines, if_neg hc, h]

theorem splitLines_eq_nil_iff : splitLines cs = [] ↔ cs = [] := by
  cases cs with
  | nil => exact ⟨fun _ => rfl, fun _ => rfl⟩
  | cons c cs =>
      unfold splitLines
      split
      · exact ⟨nofun, nofun⟩
      · split
        · exact ⟨nofun, nofun⟩
        · exact ⟨nofun, nofun⟩

theorem splitLines_append_feed (before rest : List Char) :
    splitLines (before ++ '\n' :: rest) = splitLines (before ++ ['\n']) ++ splitLines rest := by
  induction before with
  | nil => rfl
  | cons c before ih =>
      by_cases hc : c = '\n'
      · subst hc
        rw [List.cons_append, List.cons_append, splitLines_feed, splitLines_feed, ih]
        rfl
      · cases hlines : splitLines (before ++ ['\n']) with
        | nil => simp [splitLines_eq_nil_iff] at hlines
        | cons first more =>
            rw [hlines] at ih
            rw [List.cons_append, List.cons_append, splitLines_cons hc ih,
              splitLines_cons hc hlines]
            rfl

theorem length_splitLines_append_feed (before : List Char) :
    (splitLines (before ++ ['\n'])).length = before.count '\n' + 1 := by
  induction before with
  | nil => rfl
  | cons c before ih =>
      by_cases hc : c = '\n'
      · subst hc
        rw [List.cons_append, splitLines_feed, List.length_cons, ih, List.count_cons_self]
      · cases hlines : splitLines (before ++ ['\n']) with
        | nil => simp [splitLines_eq_nil_iff] at hlines
        | cons first more =>
            rw [hlines] at ih
            rw [List.cons_append, splitLines_cons hc hlines, List.count_cons_of_ne hc]
            exact ih

theorem getElem?_zero_splitLines (hline : '\n' ∉ line)
    (hafter : after = [] ∨ ∃ rest, after = '\n' :: rest) (hne : line ++ after ≠ []) :
    (splitLines (line ++ after))[0]? = some line := by
  induction line with
  | nil =>
      rcases hafter with rfl | ⟨rest, rfl⟩
      · exact absurd rfl hne
      · rfl
  | cons c line ih =>
      rcases List.ne_and_not_mem_of_not_mem_cons hline with ⟨hc, hline⟩
      by_cases hrest : line ++ after = []
      · rcases List.append_eq_nil_iff.mp hrest with ⟨rfl, rfl⟩
        rw [List.append_nil, splitLines, if_neg (Ne.symm hc)]
        rfl
      · rcases List.getElem?_eq_some_iff.mp (ih hline hrest) with ⟨hlength, hfirst⟩
        cases hlines : splitLines (line ++ after) with
        | nil => exact absurd (splitLines_eq_nil_iff.mp hlines) hrest
        | cons first more =>
            rw [List.cons_append, splitLines_cons (Ne.symm hc) hlines]
            simp only [hlines, List.getElem_cons_zero] at hfirst
            rw [hfirst]
            rfl

namespace IsLine

variable {number : Nat}

theorem feed (h : IsLine cs number line) : IsLine ('\n' :: cs) (number + 1) line := by
  rcases h with ⟨before, after, rfl, hline, hbefore, hafter, hne, rfl⟩
  refine ⟨'\n' :: before, after, rfl, hline, Or.inr ?_, hafter, hne, ?_⟩
  · rcases hbefore with rfl | ⟨front, rfl⟩
    · exact ⟨[], rfl⟩
    · exact ⟨'\n' :: front, rfl⟩
  · rw [List.count_cons_self]

theorem cons {c : Char} (hc : c ≠ '\n') (h : IsLine cs (number + 2) line) :
    IsLine (c :: cs) (number + 2) line := by
  rcases h with ⟨before, after, rfl, hline, hbefore, hafter, hne, hnumber⟩
  rcases hbefore with rfl | ⟨front, rfl⟩
  · cases hnumber
  · refine ⟨c :: (front ++ ['\n']), after, rfl, hline, Or.inr ⟨c :: front, rfl⟩, hafter, hne, ?_⟩
    rw [List.count_cons_of_ne hc, hnumber]

theorem cons_first {c : Char} (hc : c ≠ '\n') (h : IsLine cs 1 line) :
    IsLine (c :: cs) 1 (c :: line) := by
  rcases h with ⟨before, after, rfl, hline, hbefore, hafter, hne, hnumber⟩
  rcases hbefore with rfl | ⟨front, rfl⟩
  · exact ⟨[], after, rfl, List.not_mem_cons_of_ne_of_not_mem (Ne.symm hc) hline, Or.inl rfl,
      hafter, nofun, rfl⟩
  · rw [List.count_append] at hnumber
    simp at hnumber

end IsLine

theorem getElem?_splitLines_iff {i : Nat} :
    (splitLines cs)[i]? = some line ↔ IsLine cs (i + 1) line := by
  constructor
  · intro h
    induction cs generalizing i line with
    | nil => cases h
    | cons c cs ih =>
        by_cases hc : c = '\n'
        · subst hc
          rw [splitLines_feed] at h
          cases i with
          | zero =>
              cases h
              exact ⟨[], '\n' :: cs, rfl, nofun, Or.inl rfl, Or.inr ⟨cs, rfl⟩, nofun, rfl⟩
          | succ i => exact (ih h).feed
        · cases hlines : splitLines cs with
          | nil =>
              cases splitLines_eq_nil_iff.mp hlines
              rw [splitLines, if_neg hc] at h
              cases i with
              | zero =>
                  cases h
                  exact ⟨[], [], rfl, List.not_mem_cons_of_ne_of_not_mem (Ne.symm hc) nofun,
                    Or.inl rfl, Or.inl rfl, nofun, rfl⟩
              | succ i => cases h
          | cons first more =>
              rw [hlines] at ih
              rw [splitLines_cons hc hlines] at h
              cases i with
              | zero =>
                  cases h
                  exact (ih rfl).cons_first hc
              | succ i => exact (ih h).cons hc
  · rintro ⟨before, after, rfl, hline, hbefore, hafter, hne, hnumber⟩
    have hfirst := getElem?_zero_splitLines hline hafter hne
    rcases hbefore with rfl | ⟨front, rfl⟩
    · cases hnumber
      exact hfirst
    · rw [List.count_append, List.count_singleton_self] at hnumber
      rw [List.append_assoc, List.singleton_append, splitLines_append_feed,
        List.getElem?_append_right, length_splitLines_append_feed]
      · rw [Nat.add_right_cancel hnumber, Nat.sub_self]
        exact hfirst
      · exact Nat.le_of_eq ((length_splitLines_append_feed front).trans
          (Nat.add_right_cancel hnumber).symm)

end Text

namespace Batch

/-!
## Items of a text

An item is what a line of the text holds: the line without the blanks at its ends,
unless nothing is left of it or it starts with a number sign.
-/

def Item.StandsIn (item : Item) (text : String) : Prop :=
  ∃ line, Text.IsLine text.toList item.line line ∧
    item.input = Text.trim (String.ofList line) ∧
    item.input ≠ "" ∧ item.input.toList.head? ≠ some '#'

theorem itemOfLine?_eq_some_iff {number : Nat} {line : String} {item : Item} :
    itemOfLine? number line = some item ↔
      item.line = number ∧ item.input = Text.trim line ∧
        item.input ≠ "" ∧ item.input.toList.head? ≠ some '#' := by
  rcases item with ⟨itemLine, input⟩
  dsimp only [itemOfLine?]
  split
  · rename_i hnone
    refine ⟨nofun, fun h => ?_⟩
    rcases h with ⟨_, rfl, hne, hhead⟩
    exact (hnone.elim hne hhead).elim
  · rename_i hsome
    constructor
    · intro h
      cases h
      exact ⟨rfl, rfl, not_or.mp hsome⟩
    · rintro ⟨rfl, rfl, _⟩
      rfl

theorem mem_items_iff {text : String} {item : Item} :
    item ∈ items text ↔ item.StandsIn text := by
  unfold items Item.StandsIn
  rw [List.mem_filterMap]
  constructor
  · rintro ⟨⟨line, number⟩, hline, hitem⟩
    rcases itemOfLine?_eq_some_iff.mp hitem with ⟨rfl, hinput, hne, hhead⟩
    rcases List.mem_zipIdx_iff_le_and_getElem?_sub.mp hline with ⟨hnumber, hline⟩
    rw [Text.lines, List.getElem?_map, Option.map_eq_some_iff] at hline
    rcases hline with ⟨chars, hchars, rfl⟩
    have hisLine := Text.getElem?_splitLines_iff.mp hchars
    rw [Nat.sub_add_cancel hnumber] at hisLine
    exact ⟨chars, hisLine, hinput, hne, hhead⟩
  · rintro ⟨chars, hchars, hinput, hne, hhead⟩
    have hnumber : 1 ≤ item.line := by
      rcases hchars with ⟨before, _, _, _, _, _, _, hnumber⟩
      rw [hnumber]
      exact Nat.le_add_left 1 _
    rw [← Nat.sub_add_cancel hnumber] at hchars
    refine ⟨(String.ofList chars, item.line), ?_,
      itemOfLine?_eq_some_iff.mpr ⟨rfl, hinput, hne, hhead⟩⟩
    rw [List.mem_zipIdx_iff_le_and_getElem?_sub, Text.lines, List.getElem?_map,
      Text.getElem?_splitLines_iff.mpr hchars]
    exact ⟨hnumber, rfl⟩

example : items "p\r\n\n # q\n\u00a0q & r" = [⟨1, "p"⟩, ⟨4, "q & r"⟩] := rfl

theorem pairwise_items (text : String) :
    (items text).Pairwise (fun first second => first.line < second.line) := by
  have hnumbers : ((Text.lines text).zipIdx 1).Pairwise (fun first second =>
      first.2 < second.2) := by
    rw [← List.pairwise_map (f := Prod.snd), List.zipIdx_map_snd]
    exact List.pairwise_lt_range'
  refine hnumbers.filterMap _ fun first second hlt firstItem hfirst secondItem hsecond => ?_
  rw [(itemOfLine?_eq_some_iff.mp hfirst).1, (itemOfLine?_eq_some_iff.mp hsecond).1]
  exact hlt

namespace Processor

/-!
## One item

An input does not both succeed and fail, and what it does depends on the processor and
on nothing else in the batch.
-/

variable (p : Processor)

/-- The entry holds what its input simplifies to, checked if the processor checks. -/
def Yields (entry : Entry) : Prop :=
  ∃ f, Formula.parse entry.item.input = .ok f ∧
    entry.output = (p.simplifier.run f).1.render ∧ entry.metrics = (p.simplifier.run f).2 ∧
    (p.verify = true → ∃ count, Verification.verify f (p.simplifier.run f).1 = .ok count)

/-- The failure holds why its input cannot be read, or why the processor's check of what it
simplifies to fails. -/
def Fails (failure : Failure) : Prop :=
  (∃ error, Formula.parse failure.item.input = .error error ∧ failure.cause = .unreadable error) ∨
  (∃ f reason, Formula.parse failure.item.input = .ok f ∧ p.verify = true ∧
    Verification.verify f (p.simplifier.run f).1 = .error reason ∧
    failure.cause = .unverified reason)

variable {p} {item : Item} {entry : Entry} {failure : Failure}

theorem yields_of_processItem (h : p.processItem item = .ok entry) :
    entry.item = item ∧ p.Yields entry := by
  unfold processItem at h
  cases hparse : Formula.parse item.input with
  | error error =>
      rw [hparse] at h
      cases h
  | ok f =>
      simp only [hparse] at h
      split at h
      · split at h
        · cases h
        · rename_i count hverify
          cases h
          exact ⟨rfl, f, hparse, rfl, rfl, fun _ => ⟨count, hverify⟩⟩
      · rename_i hchecks
        cases h
        exact ⟨rfl, f, hparse, rfl, rfl, fun h => absurd h hchecks⟩

theorem fails_of_processItem (h : p.processItem item = .error failure) :
    failure.item = item ∧ p.Fails failure := by
  unfold processItem at h
  cases hparse : Formula.parse item.input with
  | error error =>
      rw [hparse] at h
      cases h
      exact ⟨rfl, Or.inl ⟨error, hparse, rfl⟩⟩
  | ok f =>
      simp only [hparse] at h
      split at h
      · rename_i hchecks
        split at h
        · rename_i reason hverify
          cases h
          exact ⟨rfl, Or.inr ⟨f, reason, hparse, hchecks, hverify, rfl⟩⟩
        · cases h
      · cases h

theorem Yields.not_fails (hentry : p.Yields entry) (hsame : entry.item = failure.item) :
    ¬ p.Fails failure := by
  rcases hentry with ⟨f, hparse, _, _, hchecked⟩
  rw [hsame] at hparse
  rintro (⟨error, herror, _⟩ | ⟨g, reason, hg, hchecks, hreason, _⟩)
  · rw [hparse] at herror
    cases herror
  · rcases hchecked hchecks with ⟨count, hcount⟩
    rw [hparse] at hg
    cases hg
    rw [hcount] at hreason
    cases hreason

/-!
## All items

Without stopping every item has its record, and entries and failures are each in the
order of the items.
-/

variable {rest : List Item}

theorem processItems_ok (h : p.processItem item = .ok entry) :
    p.processItems (item :: rest) =
      (entry :: (p.processItems rest).1, (p.processItems rest).2) := by
  rw [processItems, h]

theorem processItems_stop (hfast : p.failFast = true) (h : p.processItem item = .error failure) :
    p.processItems (item :: rest) = ([], [failure]) := by
  simp only [processItems, h, hfast, if_true]

theorem processItems_collect (hfast : p.failFast = false)
    (h : p.processItem item = .error failure) :
    p.processItems (item :: rest) =
      ((p.processItems rest).1, failure :: (p.processItems rest).2) := by
  simp only [processItems, h, hfast, Bool.false_eq_true, if_false]

section

variable (hfast : p.failFast = false)

include hfast

theorem processItems_perm (items : List Item) :
    ((p.processItems items).1.map Entry.item ++
      (p.processItems items).2.map Failure.item).Perm items := by
  induction items with
  | nil => exact List.Perm.refl []
  | cons item rest ih =>
      cases h : p.processItem item with
      | ok entry =>
          rw [processItems_ok h, List.map_cons, (yields_of_processItem h).1]
          exact ih.cons item
      | error failure =>
          rw [processItems_collect hfast h, List.map_cons, (fails_of_processItem h).1]
          exact List.perm_middle.trans (ih.cons item)

theorem processItems_sublist (items : List Item) :
    ((p.processItems items).1.map Entry.item).Sublist items ∧
    ((p.processItems items).2.map Failure.item).Sublist items := by
  induction items with
  | nil => exact ⟨List.Sublist.refl [], List.Sublist.refl []⟩
  | cons item rest ih =>
      cases h : p.processItem item with
      | ok entry =>
          rw [processItems_ok h, List.map_cons, (yields_of_processItem h).1]
          exact ⟨ih.1.cons_cons item, ih.2.cons item⟩
      | error failure =>
          rw [processItems_collect hfast h, List.map_cons, (fails_of_processItem h).1]
          exact ⟨ih.1.cons item, ih.2.cons_cons item⟩

theorem processItems_sound (items : List Item) :
    (∀ entry ∈ (p.processItems items).1, p.Yields entry) ∧
    (∀ failure ∈ (p.processItems items).2, p.Fails failure) := by
  induction items with
  | nil => exact ⟨nofun, nofun⟩
  | cons item rest ih =>
      cases h : p.processItem item with
      | ok entry =>
          rw [processItems_ok h]
          exact ⟨List.forall_mem_cons.mpr ⟨(yields_of_processItem h).2, ih.1⟩, ih.2⟩
      | error failure =>
          rw [processItems_collect hfast h]
          exact ⟨ih.1, List.forall_mem_cons.mpr ⟨(fails_of_processItem h).2, ih.2⟩⟩

end

end Processor

namespace Outcome

def records (outcome : Outcome) : List Item :=
  outcome.entries.map Entry.item ++ outcome.failures.map Failure.item

theorem length_records (outcome : Outcome) :
    outcome.records.length = outcome.entries.length + outcome.failures.length := by
  rw [records, List.length_append, List.length_map, List.length_map]

/-!
## Stopping at the first failure

The outcome of a processor that stops is that of one that does not, without what comes
after the first failure.
-/

def cut (outcome : Outcome) : Outcome :=
  match outcome.failures with
  | [] => outcome
  | failure :: _ =>
      ⟨outcome.total, outcome.entries.filter (fun entry => entry.item.line < failure.item.line),
        [failure]⟩

variable {outcome : Outcome}

theorem total_cut : outcome.cut.total = outcome.total := by
  unfold cut
  split
  · rfl
  · rfl

theorem isSuccess_cut : outcome.cut.isSuccess = outcome.isSuccess := by
  unfold cut
  split
  · rfl
  · rename_i hfailures
    rw [isSuccess, isSuccess, hfailures]
    rfl

theorem length_records_cut_le : outcome.cut.records.length ≤ outcome.records.length := by
  rw [length_records, length_records]
  unfold cut
  split
  · exact Nat.le_refl _
  · rename_i hfailures
    rw [hfailures]
    exact Nat.add_le_add (List.length_filter_le _ _) (Nat.succ_le_succ (Nat.zero_le _))

theorem cut_cons {total : Nat} {entry : Entry} {entries : List Entry} {failures : List Failure}
    (h : ∀ failure ∈ failures, entry.item.line < failure.item.line) :
    cut ⟨total, entry :: entries, failures⟩ =
      ⟨total, entry :: (cut ⟨total, entries, failures⟩).entries,
        (cut ⟨total, entries, failures⟩).failures⟩ := by
  cases failures with
  | nil => rfl
  | cons failure more =>
      have hbefore := h failure List.mem_cons_self
      simp only [cut, List.filter_cons, hbefore, decide_true, if_true]

theorem add_skipped (h : outcome.records.length ≤ outcome.total) :
    outcome.entries.length + outcome.failures.length + outcome.skipped = outcome.total := by
  rw [length_records] at h
  rw [skipped, Nat.sub_sub]
  exact Nat.add_sub_cancel' h

theorem isSuccess_iff (h : outcome.records.length = outcome.total) :
    outcome.isSuccess = true ↔ outcome.failures = [] := by
  rw [isSuccess, Bool.and_eq_true, List.isEmpty_iff, beq_iff_eq]
  constructor
  · exact And.left
  · intro hnone
    rw [length_records, hnone] at h
    exact ⟨hnone, h⟩

end Outcome

namespace Processor

def collecting (p : Processor) : Processor :=
  { p with failFast := false }

def stopping (p : Processor) : Processor :=
  { p with failFast := true }

theorem processItems_stopping (p : Processor) (total : Nat) {items : List Item}
    (hitems : items.Pairwise (fun first second => first.line < second.line)) :
    Outcome.mk total (p.stopping.processItems items).1 (p.stopping.processItems items).2 =
      (Outcome.mk total (p.collecting.processItems items).1
        (p.collecting.processItems items).2).cut := by
  induction items with
  | nil => rfl
  | cons item rest ih =>
      rcases List.pairwise_cons.mp hitems with ⟨hitem, hrest⟩
      have hrecords := processItems_sublist (p := p.collecting) rfl rest
      cases h : p.processItem item with
      | ok entry =>
          have hlater : ∀ failure ∈ (p.collecting.processItems rest).2,
              entry.item.line < failure.item.line := by
            intro failure hfailure
            rw [(yields_of_processItem h).1]
            exact hitem _ (hrecords.2.subset (List.mem_map_of_mem hfailure))
          rw [processItems_ok (p := p.stopping) h, processItems_ok (p := p.collecting) h,
            Outcome.cut_cons hlater, ← ih hrest]
      | error failure =>
          have hlater : (p.collecting.processItems rest).1.filter
              (fun entry => entry.item.line < failure.item.line) = [] := by
            refine List.filter_eq_nil_iff.mpr fun entry hentry hlt => ?_
            rw [(fails_of_processItem h).1] at hlt
            exact Nat.lt_asymm (of_decide_eq_true hlt)
              (hitem _ (hrecords.1.subset (List.mem_map_of_mem hentry)))
          rw [processItems_stop (p := p.stopping) rfl h,
            processItems_collect (p := p.collecting) rfl h]
          simp only [Outcome.cut, hlater]

theorem process_stopping (p : Processor) (text : String) :
    p.stopping.process text = (p.collecting.process text).cut :=
  p.processItems_stopping _ (pairwise_items text)

theorem records_collecting (p : Processor) (text : String) :
    (p.collecting.process text).records.Perm (items text) :=
  processItems_perm rfl (items text)

theorem mem_records_iff {p : Processor} {text : String} {item : Item} :
    item ∈ (p.collecting.process text).records ↔ item.StandsIn text :=
  (p.records_collecting text).mem_iff.trans mem_items_iff

theorem isSuccess_collecting_iff (p : Processor) (text : String) :
    (p.collecting.process text).isSuccess = true ↔
      ∀ failure : Failure, failure.item.StandsIn text → ¬ p.Fails failure := by
  have hsound := processItems_sound (p := p.collecting) rfl (items text)
  rw [Outcome.isSuccess_iff (p.records_collecting text).length_eq]
  constructor
  · intro hnone failure hstands hfails
    have hrecord := mem_records_iff (p := p).mpr hstands
    rw [Outcome.records, hnone, List.map_nil, List.append_nil] at hrecord
    rcases List.mem_map.mp hrecord with ⟨entry, hentry, hsame⟩
    exact (hsound.1 entry hentry).not_fails hsame hfails
  · intro hnone
    refine List.eq_nil_iff_forall_not_mem.mpr fun failure hfailure => ?_
    have hstands := mem_records_iff.mp
      (List.mem_append_right _ (List.mem_map_of_mem (f := Failure.item) hfailure))
    exact hnone failure hstands (hsound.2 failure hfailure)

/-- Every line that holds a formula has one record, an entry or a failure, which says what becomes
of that line alone.  A processor that stops has the records up to the first failure, and what it
has no record of is what it skips. -/
theorem process_accounts (p : Processor) (text : String) :
    let every := p.collecting.process text
    let stopped := p.stopping.process text
    ((∀ item, item ∈ every.records ↔ item.StandsIn text) ∧
      (every.records.map Item.line).Nodup) ∧
    (every.entries.Pairwise (fun first second => first.item.line < second.item.line) ∧
      every.failures.Pairwise (fun first second => first.item.line < second.item.line)) ∧
    every.entries.length + every.failures.length = every.total ∧
    ((∀ entry ∈ every.entries, p.Yields entry) ∧ ∀ failure ∈ every.failures, p.Fails failure) ∧
    (stopped = every.cut ∧ stopped.total = every.total) ∧
    stopped.entries.length + stopped.failures.length + stopped.skipped = stopped.total ∧
    stopped.isSuccess = every.isSuccess ∧
    (every.isSuccess = true ↔
      ∀ failure : Failure, failure.item.StandsIn text → ¬ p.Fails failure) := by
  intro every stopped
  have hperm : every.records.Perm (items text) := p.records_collecting text
  have hitems := pairwise_items text
  have hsublist := processItems_sublist (p := p.collecting) rfl (items text)
  have hcut : stopped = every.cut := p.process_stopping text
  have htotal : stopped.total = every.total := by
    rw [hcut]
    exact Outcome.total_cut
  refine ⟨⟨fun _ => mem_records_iff, ?_⟩, ⟨?_, ?_⟩, ?_, ?_, ⟨hcut, htotal⟩, ?_, ?_, ?_⟩
  · apply (hperm.map Item.line).nodup_iff.mpr
    exact (List.pairwise_map.mpr hitems).imp Nat.ne_of_lt
  · exact (List.pairwise_map (f := Entry.item)).mp (hitems.sublist hsublist.1)
  · exact (List.pairwise_map (f := Failure.item)).mp (hitems.sublist hsublist.2)
  · rw [← Outcome.length_records]
    exact hperm.length_eq
  · exact processItems_sound (p := p.collecting) rfl (items text)
  · apply Outcome.add_skipped
    rw [htotal, hcut]
    exact Nat.le_trans Outcome.length_records_cut_le (Nat.le_of_eq hperm.length_eq)
  · rw [hcut]
    exact Outcome.isSuccess_cut
  · exact p.isSuccess_collecting_iff text

end Processor
end Batch
end LinearTemporal

import LinearTemporal.Proofs.ReaderErrors
import LinearTemporal.Surface.Routine

/-!
# The registers through a whole run

Levels are closed again only where nothing goes wrong, so the registers are right because the one
method that catches errors puts them back.  Every action of a run is permitted by the registers as it
finds them: a level is opened within the limit and closed only if one is open, and a method that
returns is back at its depth with tokens taken.  That is shown method by method, together with what
the method returns, which is what the reader of the same name returns at the cursor that the registers
stand for.
-/

namespace LinearTemporal
namespace Surface

/-!
## What the registers permit

The registers stand for a cursor: what is left of the tokens, with the levels that are
open.  A try ends further on with a value, and where it started with nothing.
-/

namespace Registers

def cursor (tokens : List Located) (s : Registers) : Cursor :=
  ⟨tokens.drop s.position, s.depth⟩

def Advances (s s' : Registers) : Prop :=
  s'.depth = s.depth ∧ s.position < s'.position

theorem Advances.trans {s s' s'' : Registers} (h : s.Advances s') (h' : s'.Advances s'') :
    s.Advances s'' :=
  ⟨h'.1.trans h.1, Nat.lt_trans h.2 h'.2⟩

def Tries {α : Type} (s : Registers) : Option α → Registers → Prop
  | some _, s' => s.Advances s'
  | none, s' => s' = s

/-- What may be done with the registers as they are. -/
def Permits (s : Registers) : Action → Prop
  | .take => True
  | .enter => s.depth ≤ nestingLimit
  | .leave => 0 < s.depth
  | .restore saved => saved.depth ≤ nestingLimit
  | .finish _ entry .value => entry.Advances s
  | .finish _ entry .nothing => s = entry
  | .finish _ _ .failure => True
  | .giveUp => False

/-- Every action is permitted where it is done. -/
def Keeps : Registers → List Action → Prop
  | _, [] => True
  | s, action :: actions => s.Permits action ∧ (action.apply s).Keeps actions

variable {s : Registers} {actions : List Action}

theorem after_append (before more : List Action) :
    s.after (before ++ more) = (s.after before).after more :=
  List.foldl_append

theorem keeps_append {before more : List Action} :
    s.Keeps (before ++ more) ↔ s.Keeps before ∧ (s.after before).Keeps more := by
  induction before generalizing s with
  | nil => exact (iff_of_eq (true_and _)).symm
  | cons action before ih => exact (and_congr_right fun _ => ih).trans (and_assoc).symm

theorem Permits.depth_le {action : Action} (h : s.Permits action)
    (hs : s.depth ≤ nestingLimit + 1) : (action.apply s).depth ≤ nestingLimit + 1 := by
  cases action with
  | enter => exact Nat.succ_le_succ h
  | leave => exact Nat.le_trans (Nat.sub_le _ _) hs
  | restore saved => exact Nat.le_succ_of_le h
  | _ => exact hs

theorem Keeps.depth_le (h : s.Keeps actions) (hs : s.depth ≤ nestingLimit + 1) :
    (s.after actions).depth ≤ nestingLimit + 1 := by
  induction actions generalizing s with
  | nil => exact hs
  | cons action actions ih => exact ih h.2 (h.1.depth_le hs)

theorem cursor_take (s : Registers) (tokens : List Located) :
    (Action.take.apply s).cursor tokens = (s.cursor tokens).advance := by
  rw [Cursor.advance, cursor, cursor, List.tail_drop]
  rfl

theorem cursor_take_of_rest {tokens rest : List Located} {located : Located}
    (h : (s.cursor tokens).rest = located :: rest) :
    (Action.take.apply s).cursor tokens = ⟨rest, (s.cursor tokens).depth⟩ := by
  rw [cursor_take, Cursor.advance, h]
  rfl

end Registers

/-!
## Routines and readers in step

The reader is at the cursor that the registers stand for, and both end with the same.
-/

/-- What was done is permitted throughout, and the result is that of the reader; if it is a value,
then the registers have come to where the reader ends, and satisfy the condition. -/
inductive Run.Agrees {α : Type} (tokens : List Located) (s : Registers)
    (Q : α → Registers → Prop) : Run α → Except ParseError (α × Cursor) → Prop where
  | failed {e : ParseError} {actions : List Action} :
      s.Keeps actions → Agrees tokens s Q ⟨.error e, actions⟩ (.error e)
  | returned {x : α} {actions : List Action} : s.Keeps actions → Q x (s.after actions) →
      Agrees tokens s Q ⟨.ok x, actions⟩ (.ok (x, (s.after actions).cursor tokens))

namespace Run.Agrees

variable {α β γ : Type} {tokens : List Located} {s : Registers}
variable {P : α → Registers → Prop} {Q : β → Registers → Prop}
variable {routine : Routine α} {next : α → Routine β}

theorem keeps {run : Run α} {outcome : Except ParseError (α × Cursor)}
    (h : Agrees tokens s P run outcome) : s.Keeps run.actions := by
  cases h with
  | failed hkeeps => exact hkeeps
  | returned hkeeps _ => exact hkeeps

theorem result_eq {run : Run α} {outcome : Except ParseError (α × Cursor)}
    (h : Agrees tokens s P run outcome) : run.result = outcome.map Prod.fst := by
  cases h with
  | failed _ => rfl
  | returned _ _ => rfl

theorem pure {x : α} (h : P x s) :
    Agrees tokens s P ((Pure.pure x : Routine α).on tokens s) (.ok (x, s.cursor tokens)) := by
  have hnothing : s.Keeps [] := trivial
  exact returned hnothing h

theorem bind {outcome : Except ParseError (α × Cursor)}
    (h : Agrees tokens s P (routine.on tokens s) outcome)
    (rest : α × Cursor → Except ParseError (β × Cursor))
    (hnext : ∀ x s', P x s' →
      Agrees tokens s' Q ((next x).on tokens s') (rest (x, s'.cursor tokens))) :
    Agrees tokens s Q ((routine >>= next).on tokens s) (outcome >>= rest) := by
  show Agrees tokens s Q ((Routine.bind routine next).on tokens s) _
  dsimp only [Routine.bind]
  generalize routine.on tokens s = first at h
  cases h with
  | failed hkeeps => exact failed hkeeps
  | returned hkeeps hP =>
      rename_i x before
      have hsecond := hnext x (s.after before) hP
      show Agrees tokens s Q ⟨((next x).on tokens (s.after before)).result,
        before ++ ((next x).on tokens (s.after before)).actions⟩
        (rest (x, (s.after before).cursor tokens))
      generalize (next x).on tokens (s.after before) = second at hsecond
      generalize rest (x, (s.after before).cursor tokens) = outcome at hsecond
      cases hsecond with
      | failed hmore => exact failed (Registers.keeps_append.mpr ⟨hkeeps, hmore⟩)
      | returned hmore hQ =>
          rename_i y more
          rw [← Registers.after_append] at hQ ⊢
          exact returned (Registers.keeps_append.mpr ⟨hkeeps, hmore⟩) hQ

theorem stop {e : ParseError} (h : Agrees tokens s P (routine.on tokens s) (.error e)) :
    Agrees tokens s Q ((routine >>= next).on tokens s) (.error e) := by
  show Agrees tokens s Q ((Routine.bind routine next).on tokens s) _
  dsimp only [Routine.bind]
  generalize routine.on tokens s = first at h
  cases h with
  | failed hkeeps => exact failed hkeeps

/-!
### Steps that the reader has behind it

A cursor shows the tokens that are left and how many levels are open.  So the reader goes on at once
where the routine first looks at the registers, or at the next token.
-/

variable {outcome : Except ParseError (β × Cursor)}

theorem step {x : α} {s' : Registers} {c : Cursor}
    (hstep : Agrees tokens s (fun y t => y = x ∧ t = s') (routine.on tokens s) (.ok (x, c)))
    (h : Agrees tokens s' Q ((next x).on tokens s') outcome) :
    Agrees tokens s Q ((routine >>= next).on tokens s) outcome := by
  refine hstep.bind (fun _ => outcome) ?_
  rintro _ _ ⟨rfl, rfl⟩
  exact h

theorem act {action : Action} {next : Unit → Routine β} (haction : s.Permits action)
    (h : Agrees tokens (action.apply s) Q ((next ()).on tokens (action.apply s)) outcome) :
    Agrees tokens s Q ((Routine.act action >>= next).on tokens s) outcome := by
  have hone : s.Keeps [action] := ⟨haction, trivial⟩
  exact step (returned hone ⟨rfl, rfl⟩) h

theorem registers {next : Registers → Routine β}
    (h : Agrees tokens s Q ((next s).on tokens s) outcome) :
    Agrees tokens s Q ((Routine.registers >>= next).on tokens s) outcome :=
  step (pure ⟨rfl, rfl⟩) h

theorem remaining {next : Nat → Routine β}
    (h : Agrees tokens s Q ((next (s.cursor tokens).rest.length).on tokens s) outcome) :
    Agrees tokens s Q ((Routine.remaining >>= next).on tokens s) outcome := by
  rw [Registers.cursor, List.length_drop] at h
  exact step (pure ⟨rfl, rfl⟩) h

theorem upcoming {next : Option Located → Routine β}
    (h : Agrees tokens s Q ((next (s.cursor tokens).rest.head?).on tokens s) outcome) :
    Agrees tokens s Q ((Routine.upcoming >>= next).on tokens s) outcome := by
  rw [Registers.cursor, List.head?_drop] at h
  exact step (pure ⟨rfl, rfl⟩) h

theorem upcoming_cons {next : Option Located → Routine β} {located : Located} {rest : List Located}
    (hrest : (s.cursor tokens).rest = located :: rest)
    (h : Agrees tokens s Q ((next (some located)).on tokens s) outcome) :
    Agrees tokens s Q ((Routine.upcoming >>= next).on tokens s) outcome := by
  apply upcoming
  rw [hrest]
  exact h

theorem lift {result : Except ParseError α} {rest : α → Except ParseError (β × Cursor)}
    (h : ∀ x, Agrees tokens s Q ((next x).on tokens s) (rest x)) :
    Agrees tokens s Q ((Routine.lift result >>= next).on tokens s) (result >>= rest) := by
  cases result with
  | error e => exact failed trivial
  | ok x => exact step (pure ⟨rfl, rfl⟩) (h x)

theorem attempt {attempted : Except ParseError (α × Cursor)} {next : Except ParseError α → Routine β}
    (h : Agrees tokens s P (routine.on tokens s) attempted)
    (hvalue : ∀ x s', attempted = .ok (x, s'.cursor tokens) → P x s' →
      Agrees tokens s' Q ((next (.ok x)).on tokens s') outcome)
    (herror : ∀ e s', attempted = .error e →
      Agrees tokens s' Q ((next (.error e)).on tokens s') outcome) :
    Agrees tokens s Q ((Routine.attempt routine >>= next).on tokens s) outcome := by
  have hattempt : (Routine.attempt routine).on tokens s =
      ⟨.ok (routine.on tokens s).result, (routine.on tokens s).actions⟩ := rfl
  generalize routine.on tokens s = run at h hattempt
  cases h with
  | failed hkeeps =>
      rename_i e actions
      have hstep : Agrees tokens s (fun y t => y = .error e ∧ t = s.after actions)
          ((Routine.attempt routine).on tokens s)
          (.ok (.error e, (s.after actions).cursor tokens)) := by
        rw [hattempt]
        exact returned hkeeps ⟨rfl, rfl⟩
      exact hstep.step (herror e _ rfl)
  | returned hkeeps hP =>
      rename_i x actions
      have hstep : Agrees tokens s (fun y t => y = .ok x ∧ t = s.after actions)
          ((Routine.attempt routine).on tokens s)
          (.ok (.ok x, (s.after actions).cursor tokens)) := by
        rw [hattempt]
        exact returned hkeeps ⟨rfl, rfl⟩
      exact hstep.step (hvalue x _ rfl hP)

/-!
### Taking tokens

A token is asked for by what can be made of it, and taken if there is one.
-/

variable {select : Token → Option γ}

theorem accept?_cursor :
    (s.cursor tokens).accept? select =
      ((s.cursor tokens).rest.head?.bind (fun located => select located.token)).map
        (fun mark => (mark, (Action.take.apply s).cursor tokens)) := by
  unfold Cursor.accept? Cursor.peek?
  rw [Option.bind_map, Function.comp_def, ← Registers.cursor_take]
  split
  · rename_i hselect
    rw [hselect]
    rfl
  · rename_i hselect
    rw [hselect]
    rfl

theorem eat_none {next : Option γ → Routine β}
    (haccept : (s.cursor tokens).accept? select = none)
    (h : Agrees tokens s Q ((next none).on tokens s) outcome) :
    Agrees tokens s Q ((Routine.eat select >>= next).on tokens s) outcome := by
  rw [accept?_cursor, Option.map_eq_none_iff] at haccept
  have heat : Agrees tokens s (fun y s' => y = none ∧ s' = s)
      ((Routine.eat select).on tokens s) (.ok (none, s.cursor tokens)) := by
    apply upcoming
    rw [haccept]
    exact pure ⟨rfl, rfl⟩
  exact step heat h

theorem eat_some {next : Option γ → Routine β} {mark : γ} {c : Cursor}
    (haccept : (s.cursor tokens).accept? select = some (mark, c))
    (h : c = (Action.take.apply s).cursor tokens →
      Agrees tokens (Action.take.apply s) Q ((next (some mark)).on tokens (Action.take.apply s))
        outcome) :
    Agrees tokens s Q ((Routine.eat select >>= next).on tokens s) outcome := by
  rw [accept?_cursor] at haccept
  rcases Option.map_eq_some_iff.mp haccept with ⟨x, hselect, hpair⟩
  cases hpair
  have heat : Agrees tokens s (fun y t => y = some mark ∧ t = Action.take.apply s)
      ((Routine.eat select).on tokens s) (.ok (some mark, (Action.take.apply s).cursor tokens)) := by
    apply upcoming
    rw [hselect]
    exact act trivial (pure ⟨rfl, rfl⟩)
  exact heat.step (h rfl)

/-!
### Levels

The level that is refused is open all the same.
-/

theorem enter (hdepth : s.depth < nestingLimit) :
    Agrees tokens s (fun y t => y = () ∧ t = Action.enter.apply s) (Routine.enter.on tokens s)
      (.ok ((), (Action.enter.apply s).cursor tokens)) := by
  have hwithin : ¬ nestingLimit < (Action.enter.apply s).depth := Nat.not_lt_of_le hdepth
  refine act (Nat.le_of_lt hdepth) (registers (upcoming ?_))
  rw [if_neg hwithin]
  exact pure ⟨rfl, rfl⟩

theorem enter_full (hdepth : s.depth = nestingLimit) :
    Agrees tokens s (fun _ _ => False) (Routine.enter.on tokens s)
      (.error (.tooDeep (s.cursor tokens).offset)) := by
  have hbeyond : nestingLimit < (Action.enter.apply s).depth := hdepth ▸ Nat.lt_succ_self _
  refine act (Nat.le_of_eq hdepth) (registers (upcoming ?_))
  rw [if_pos hbeyond]
  exact failed trivial

/-!
### What has to come next

What is not expected is refused with the same error, and what is read stands if the
token after it is the expected one.
-/

theorem refuse (expected : Expectation) :
    Agrees tokens s P ((Routine.refuse expected : Routine α).on tokens s)
      (.error ((s.cursor tokens).unexpected expected)) := by
  apply upcoming
  unfold Cursor.unexpected
  cases (s.cursor tokens).rest with
  | nil => exact failed trivial
  | cons located rest => exact failed trivial

theorem closing {x : α} {token : Token} {expected : Expectation} (hP : ∀ s', s.Advances s' → P x s') :
    Agrees tokens s P ((Routine.expect token expected >>= fun _ => Pure.pure x).on tokens s)
      (do
        let c ← (s.cursor tokens).expect token expected
        return (x, c)) := by
  unfold Cursor.expect
  split
  · rename_i hpeek
    have haccept : (s.cursor tokens).accept? (Token.only token) =
        some ((), (Action.take.apply s).cursor tokens) := by
      unfold Cursor.accept?
      rw [hpeek, ← Registers.cursor_take, Option.bind_some, Token.only, if_pos rfl]
    have hexpect : Agrees tokens s (fun y t => y = () ∧ t = Action.take.apply s)
        ((Routine.expect token expected).on tokens s)
        (.ok ((), (Action.take.apply s).cursor tokens)) :=
      eat_some haccept (fun _ => pure ⟨rfl, rfl⟩)
    rw [← Registers.cursor_take]
    exact hexpect.step (pure (hP _ ⟨rfl, Nat.lt_succ_self _⟩))
  · rename_i hpeek
    have haccept : (s.cursor tokens).accept? (Token.only token) = none := by
      unfold Cursor.accept?
      cases hnext : (s.cursor tokens).peek? with
      | none => rfl
      | some next =>
          have hne : next ≠ token := fun heq => hpeek (hnext.trans (congrArg some heq))
          rw [Option.bind_some, Token.only, if_neg hne]
    have hexpect : Agrees tokens s (fun _ _ => False)
        ((Routine.expect token expected).on tokens s)
        (.error ((s.cursor tokens).unexpected expected)) :=
      eat_none haccept (refuse expected)
    exact hexpect.stop

/-!
### Methods

A method that ends with a value has taken tokens, as is noted.  What it nests becomes
part of what it reads, in parentheses or after the tokens that were taken.
-/

theorem method {outcome : Except ParseError (α × Cursor)} {name : Method} {ending : α → Ending}
    (h : Agrees tokens s P (routine.on tokens s) outcome)
    (hending : ∀ x s', P x s' → s'.Permits (.finish name s (ending x))) :
    Agrees tokens s P ((Routine.method name routine ending).on tokens s) outcome := by
  dsimp only [Routine.method]
  generalize routine.on tokens s = run at h
  cases h with
  | failed hkeeps => exact failed (Registers.keeps_append.mpr ⟨hkeeps, trivial, trivial⟩)
  | returned hkeeps hP =>
      rename_i x actions
      have hends : s.Keeps (actions ++ [.finish name s (ending x)]) :=
        Registers.keeps_append.mpr ⟨hkeeps, hending x _ hP, trivial⟩
      have hafter : s.after actions = s.after (actions ++ [.finish name s (ending x)]) := by
        rw [Registers.after_append]
        rfl
      rw [hafter] at hP ⊢
      exact returned hends hP

theorem tries {outcome : Except ParseError (Option α × Cursor)} {routine : Routine (Option α)}
    (h : Agrees tokens s s.Tries (routine.on tokens s) outcome) (name : Method) :
    Agrees tokens s s.Tries ((Routine.method name routine Ending.ofTry).on tokens s) outcome := by
  refine h.method ?_
  intro result s' hresult
  cases result with
  | none => exact hresult
  | some x => exact hresult

end Run.Agrees

theorem Cursor.HasLevels.of_depth_eq {left : Nat} {tokens : List Located} {s s' : Registers}
    (h : (s.cursor tokens).HasLevels left) (hdepth : s'.depth = s.depth) :
    (s'.cursor tokens).HasLevels left where
  within := Nat.le_trans (Nat.le_of_eq hdepth) h.within
  exhausted := Nat.lt_of_lt_of_le h.exhausted (Nat.add_le_add_right (Nat.le_of_eq hdepth.symm) _)

/-- The routine does what it may, and comes to what the reader comes to, with tokens taken and the
levels as they were. -/
def Imitates {α : Type} (left : Nat) (routine : Routine α) (parser : Parser α) : Prop :=
  ∀ tokens s, (Registers.cursor tokens s).HasLevels left →
    Run.Agrees tokens s (fun _ => s.Advances) (routine.on tokens s) (parser (s.cursor tokens))

namespace Imitates

variable {α β γ : Type} {left : Nat} {routine : Routine α} {parser : Parser α}

theorem zero (routine : Routine α) (parser : Parser α) : Imitates 0 routine parser :=
  fun _ _ hlevels => absurd hlevels.within (Nat.not_le_of_lt hlevels.exhausted)

theorem nested (h : Imitates left routine parser) :
    Imitates (left + 1) (Routine.nested routine) (Parser.nested parser) := by
  intro tokens s hlevels
  unfold Parser.nested Cursor.enter
  split
  · rename_i hroom
    have hdeeper : (Registers.cursor tokens (Action.enter.apply s)).HasLevels left := by
      refine ⟨hroom, ?_⟩
      have hexhausted := hlevels.exhausted
      rw [← Nat.add_assoc, Nat.add_right_comm] at hexhausted
      exact hexhausted
    refine (Run.Agrees.enter hroom).step ((h tokens _ hdeeper).bind _ ?_)
    intro x s' hadvances
    -- What was read left the levels as they were, so the one opened here is still open.
    have hopen : 0 < s'.depth := hadvances.1 ▸ Nat.succ_pos _
    refine Run.Agrees.act hopen (Run.Agrees.pure ⟨?_, hadvances.2⟩)
    show s'.depth - 1 = s.depth
    rw [hadvances.1]
    rfl
  · rename_i hfull
    have hdepth : s.depth = nestingLimit :=
      Nat.le_antisymm hlevels.within (Nat.le_of_not_lt hfull)
    exact (Run.Agrees.enter_full hdepth).stop

theorem yields (h : Imitates left routine parser) (name : Method) :
    Imitates left (Routine.yields name routine) parser :=
  fun tokens s hlevels => (h tokens s hlevels).method (fun _ _ hadvances => hadvances)

theorem part (h : Imitates left routine parser) {tokens : List Located} {s s' : Registers}
    (build : α → β) (htaken : s.Advances s') (hlevels : (s'.cursor tokens).HasLevels (left + 1)) :
    Run.Agrees tokens s' (fun _ => s.Advances)
      ((do
        let x ← Routine.nested routine
        return build x : Routine β).on tokens s')
      (do
        let (x, c) ← Parser.nested parser (s'.cursor tokens)
        return (build x, c)) := by
  refine (h.nested tokens s' hlevels).bind _ ?_
  intro x s'' hnested
  exact Run.Agrees.pure (htaken.trans hnested)

theorem enclosed (h : Imitates left routine parser) {tokens : List Located} {s s' : Registers}
    (htaken : s.Advances s') (hlevels : (s'.cursor tokens).HasLevels (left + 1)) :
    Run.Agrees tokens s' (fun _ => s.Advances)
      ((do
        let x ← Routine.nested routine
        Routine.expect .closeParen .closeParen
        return x : Routine α).on tokens s')
      (do
        let (x, c) ← Parser.nested parser (s'.cursor tokens)
        let c ← c.expect .closeParen .closeParen
        return (x, c)) := by
  refine (h.nested tokens s' hlevels).bind _ ?_
  intro x s'' hnested
  exact Run.Agrees.closing (fun _ hclosed => (htaken.trans hnested).trans hclosed)

variable {separator : Token → Option β}

theorem tailWithin (h : Imitates left routine parser) (rounds : Nat) {tokens : List Located}
    {s : Registers} (hlevels : (s.cursor tokens).HasLevels left)
    (hrounds : tokens.length - s.position ≤ rounds) :
    Run.Agrees tokens s (fun _ s' => s'.depth = s.depth ∧ s.position ≤ s'.position)
      ((Routine.tailWithin separator routine rounds).on tokens s)
      (Parser.tailWithin separator parser rounds (s.cursor tokens)) := by
  induction rounds generalizing s with
  | zero =>
      -- No token is left that a separator could be, so the bound is not met.
      have hrest : (s.cursor tokens).rest = [] := by
        apply List.drop_eq_nil_of_le
        exact Nat.le_of_sub_eq_zero (Nat.le_zero.mp hrounds)
      have haccept : (s.cursor tokens).accept? separator = none := by
        rw [Run.Agrees.accept?_cursor, hrest]
        rfl
      exact Run.Agrees.eat_none haccept (Run.Agrees.pure ⟨rfl, Nat.le_refl _⟩)
  | succ rounds ih =>
      unfold Parser.tailWithin
      split
      · rename_i haccept
        exact Run.Agrees.eat_none haccept (Run.Agrees.pure ⟨rfl, Nat.le_refl _⟩)
      · rename_i mark afterMark haccept
        refine Run.Agrees.eat_some haccept ?_
        rintro rfl
        have htaken : ((Action.take.apply s).cursor tokens).HasLevels left :=
          hlevels.of_depth_eq rfl
        refine (h tokens _ htaken).bind _ ?_
        intro x s' hoperand
        have hmore : tokens.length - s'.position ≤ rounds := by
          have hposition : s.position + 1 < s'.position := hoperand.2
          omega
        refine (ih (hlevels.of_depth_eq hoperand.1) hmore).bind _ ?_
        intro more s'' htail
        refine Run.Agrees.pure ⟨htail.1.trans hoperand.1, ?_⟩
        exact Nat.le_trans (Nat.le_of_lt (Nat.lt_of_succ_lt hoperand.2)) htail.2

theorem chain (h : Imitates left routine parser) (join : α → List (β × α) → γ) :
    Imitates left
      (do
        let (first, more) ← Routine.chain separator routine
        return join first more)
      (fun c => do
        let ((first, more), c) ← Parser.chain separator parser c
        return (join first more, c)) := by
  intro tokens s hlevels
  have hchain : Run.Agrees tokens s (fun _ => s.Advances)
      ((Routine.chain separator routine).on tokens s)
      (Parser.chain separator parser (s.cursor tokens)) := by
    refine (h tokens s hlevels).bind _ ?_
    intro first s' hfirst
    refine Run.Agrees.remaining ?_
    have hrounds : tokens.length - s'.position ≤ (s'.cursor tokens).rest.length :=
      Nat.le_of_eq List.length_drop.symm
    refine (h.tailWithin _ (hlevels.of_depth_eq hfirst.1) hrounds).bind _ ?_
    intro more s'' hmore
    exact Run.Agrees.pure ⟨hmore.1.trans hfirst.1, Nat.lt_of_lt_of_le hfirst.2 hmore.2⟩
  refine hchain.bind _ ?_
  intro result s' hresult
  exact Run.Agrees.pure hresult

end Imitates

/-!
## Terms

Each method does what the reader of its name does, in the same order.
-/

variable {left : Nat}

theorem Token.digits?_eq_some_iff {token : Token} {digits : String} :
    token.digits? = some digits ↔ token = .digits digits := by
  unfold Token.digits?
  split <;> simp_all

theorem imitates_factor {deeperTerm deeperFactor : Routine Term} {term factor : Parser Term}
    (hterm : Imitates left deeperTerm term) (hfactor : Imitates left deeperFactor factor) :
    Imitates (left + 1) (Routine.factor deeperTerm deeperFactor) (Parser.factor term factor) := by
  intro tokens s hlevels
  have htaken : ((Action.take.apply s).cursor tokens).HasLevels (left + 1) :=
    hlevels.of_depth_eq rfl
  have htake : s.Advances (Action.take.apply s) := ⟨rfl, Nat.lt_succ_self _⟩
  unfold Parser.factor
  split
  · rename_i name offset rest hrest
    rw [← Registers.cursor_take_of_rest hrest]
    refine Run.Agrees.upcoming_cons hrest ?_
    exact Run.Agrees.act trivial (Run.Agrees.pure htake)
  · rename_i digits offset rest hrest
    rw [← Registers.cursor_take_of_rest hrest]
    refine Run.Agrees.upcoming_cons hrest ?_
    refine Run.Agrees.act trivial (Run.Agrees.lift ?_)
    intro value
    exact Run.Agrees.pure htake
  · rename_i offset digits offset' rest hrest
    have hdigits : ((Action.take.apply s).cursor tokens).accept? Token.digits? =
        some (digits, ⟨rest, (s.cursor tokens).depth⟩) := by
      rw [Registers.cursor_take_of_rest hrest]
      rfl
    refine Run.Agrees.upcoming_cons hrest ?_
    refine Run.Agrees.act trivial (Run.Agrees.eat_some hdigits ?_)
    intro hcursor
    rw [hcursor]
    refine Run.Agrees.lift ?_
    intro value
    exact Run.Agrees.pure ⟨rfl, Nat.lt_succ_of_lt (Nat.lt_succ_self _)⟩
  · rename_i offset rest hminus hrest
    -- The token after the minus is no number, or the case before would apply.
    have hdigits : ((Action.take.apply s).cursor tokens).accept? Token.digits? = none := by
      rw [Registers.cursor_take_of_rest hrest]
      cases haccept : Cursor.accept? ⟨rest, (s.cursor tokens).depth⟩ Token.digits? with
      | none => rfl
      | some entry =>
          rcases Cursor.exists_of_accept? haccept with ⟨token, hmark, htoken⟩
          rcases Token.digits?_eq_some_iff.mp hmark with rfl
          cases htoken with
          | step _ => exact (hminus _ _ _ rfl).elim
    rw [← Registers.cursor_take_of_rest hrest]
    refine Run.Agrees.upcoming_cons hrest ?_
    exact Run.Agrees.act trivial (Run.Agrees.eat_none hdigits (hfactor.part Term.neg htake htaken))
  · rename_i offset rest hrest
    rw [← Registers.cursor_take_of_rest hrest]
    refine Run.Agrees.upcoming_cons hrest ?_
    exact Run.Agrees.act trivial (hterm.enclosed htake htaken)
  · rename_i hname hdigits _ hminus hparen
    unfold Cursor.unexpected
    apply Run.Agrees.upcoming
    cases hrest : (s.cursor tokens).rest with
    | nil => exact Run.Agrees.failed trivial
    | cons located rest =>
        rcases located with ⟨token, offset⟩
        refine Run.Agrees.act trivial ?_
        cases token with
        | name name => exact (hname _ _ _ hrest).elim
        | digits digits => exact (hdigits _ _ _ hrest).elim
        | openParen => exact (hparen _ _ hrest).elim
        | arithmetic op =>
            cases op with
            | sub => exact (hminus _ _ hrest).elim
            | _ => exact Run.Agrees.failed trivial
        | _ => exact Run.Agrees.failed trivial

theorem imitates_product {factor : Routine Term} {parser : Parser Term}
    (h : Imitates left factor parser) : Imitates left (Routine.product factor) (Parser.product parser) :=
  h.chain Parser.foldArithmetic

theorem imitates_sum {product : Routine Term} {parser : Parser Term}
    (h : Imitates left product parser) : Imitates left (Routine.sum product) (Parser.sum parser) :=
  h.chain Parser.foldArithmetic

/-!
## Formulas

Whatever a try of a comparison did, it is undone if nothing comes of it.
-/

theorem agrees_comparison {term : Routine Term} {parser : Parser Term} (h : Imitates left term parser)
    {tokens : List Located} {s : Registers} (hlevels : (s.cursor tokens).HasLevels left) :
    Run.Agrees tokens s s.Tries ((Routine.comparison term).on tokens s)
      (Parser.atom? parser (s.cursor tokens)) := by
  have hrestore : ∀ s' : Registers, Run.Agrees tokens s' s.Tries
      ((do
        Routine.act (.restore s)
        return none : Routine (Option Tree)).on tokens s') (.ok (none, s.cursor tokens)) :=
    fun s' => Run.Agrees.act hlevels.within (Run.Agrees.pure rfl)
  unfold Parser.atom?
  refine Run.Agrees.registers (Run.Agrees.attempt (h tokens s hlevels) ?_ ?_)
  · intro leftTerm s' houtcome hleft
    rw [houtcome]
    dsimp only
    split
    · rename_i haccept
      exact Run.Agrees.eat_none haccept (hrestore s')
    · rename_i op afterOp haccept
      refine Run.Agrees.eat_some haccept ?_
      rintro rfl
      have hadvances : s.Advances (Action.take.apply s') :=
        hleft.trans ⟨rfl, Nat.lt_succ_self _⟩
      refine (h tokens _ (hlevels.of_depth_eq hadvances.1)).bind _ ?_
      intro rightTerm s'' hright
      exact Run.Agrees.pure (hadvances.trans hright)
  · -- Nothing is known of the registers behind an error, and nothing needs to be.
    intro e s' houtcome
    rw [houtcome]
    dsimp only
    split
    · exact Run.Agrees.failed trivial
    · exact hrestore s'

theorem imitates_primary {comparison : Routine (Option Tree)} {deeperFormula : Routine Tree}
    {term : Parser Term} {formula : Parser Tree}
    (hcomparison : ∀ tokens s, (Registers.cursor tokens s).HasLevels (left + 1) →
      Run.Agrees tokens s s.Tries (comparison.on tokens s) (Parser.atom? term (s.cursor tokens)))
    (hformula : Imitates left deeperFormula formula) :
    Imitates (left + 1) (Routine.primary comparison deeperFormula)
      (Parser.primary term formula) := by
  intro tokens s hlevels
  have htake : s.Advances (Action.take.apply s) := ⟨rfl, Nat.lt_succ_self _⟩
  refine (hcomparison tokens s hlevels).bind _ ?_
  intro result s' hresult
  cases result with
  | some tree => exact Run.Agrees.pure hresult
  | none =>
      cases hresult
      dsimp only
      split
      · rename_i value offset rest hrest
        rw [← Registers.cursor_take_of_rest hrest]
        refine Run.Agrees.upcoming_cons hrest ?_
        exact Run.Agrees.act trivial (Run.Agrees.pure htake)
      · rename_i name offset rest hrest
        rw [← Registers.cursor_take_of_rest hrest]
        refine Run.Agrees.upcoming_cons hrest ?_
        exact Run.Agrees.act trivial (Run.Agrees.pure htake)
      · rename_i offset rest hrest
        have htaken : ((Action.take.apply s).cursor tokens).HasLevels (left + 1) :=
          hlevels.of_depth_eq rfl
        rw [← Registers.cursor_take_of_rest hrest]
        refine Run.Agrees.upcoming_cons hrest ?_
        exact Run.Agrees.act trivial (hformula.enclosed htake htaken)
      · rename_i hconstant hname hparen
        apply Run.Agrees.upcoming
        cases hrest : (s.cursor tokens).rest with
        | nil => exact Run.Agrees.refuse .formula
        | cons located rest =>
            rcases located with ⟨token, offset⟩
            cases token with
            | constant value => exact (hconstant _ _ _ hrest).elim
            | name name => exact (hname _ _ _ hrest).elim
            | openParen => exact (hparen _ _ hrest).elim
            | _ => exact Run.Agrees.refuse .formula

theorem imitates_unary {primary deeperUnary : Routine Tree} {parser deeper : Parser Tree}
    (hprimary : Imitates (left + 1) primary parser) (hunary : Imitates left deeperUnary deeper) :
    Imitates (left + 1) (Routine.unary primary deeperUnary) (Parser.unary parser deeper) := by
  intro tokens s hlevels
  unfold Parser.unary
  split
  · rename_i haccept
    exact Run.Agrees.eat_none haccept (hprimary tokens s hlevels)
  · rename_i build afterOp haccept
    refine Run.Agrees.eat_some haccept ?_
    rintro rfl
    have htake : s.Advances (Action.take.apply s) := ⟨rfl, Nat.lt_succ_self _⟩
    exact hunary.part build htake (hlevels.of_depth_eq htake.1)

theorem imitates_binary {unary deeperBinary : Routine Tree} {parser deeper : Parser Tree}
    (hunary : Imitates (left + 1) unary parser) (hbinary : Imitates left deeperBinary deeper) :
    Imitates (left + 1) (Routine.binary unary deeperBinary) (Parser.binary parser deeper) := by
  intro tokens s hlevels
  refine (hunary tokens s hlevels).bind _ ?_
  intro leftTree s' hleft
  dsimp only
  split
  · rename_i haccept
    exact Run.Agrees.eat_none haccept (Run.Agrees.pure hleft)
  · rename_i op afterOp haccept
    refine Run.Agrees.eat_some haccept ?_
    rintro rfl
    have htake : s.Advances (Action.take.apply s') := hleft.trans ⟨rfl, Nat.lt_succ_self _⟩
    exact hbinary.part (Tree.temporal op leftTree) htake (hlevels.of_depth_eq htake.1)

theorem imitates_implicational {disjunction deeperImplication : Routine Tree}
    {parser deeper : Parser Tree} (hdisjunction : Imitates (left + 1) disjunction parser)
    (himplication : Imitates left deeperImplication deeper) :
    Imitates (left + 1) (Routine.implicational disjunction deeperImplication)
      (Parser.implicational parser deeper) := by
  intro tokens s hlevels
  refine (hdisjunction tokens s hlevels).bind _ ?_
  intro premise s' hpremise
  dsimp only
  split
  · rename_i haccept
    exact Run.Agrees.eat_none haccept (Run.Agrees.pure hpremise)
  · rename_i afterOp haccept
    refine Run.Agrees.eat_some haccept ?_
    rintro rfl
    have htake : s.Advances (Action.take.apply s') := hpremise.trans ⟨rfl, Nat.lt_succ_self _⟩
    exact himplication.part (Tree.implies premise) htake (hlevels.of_depth_eq htake.1)

theorem routine_connected_eq (k : Connective) (operand : Routine Tree) :
    Routine.connected k operand = (do
      let (first, more) ← Routine.chain (Token.only (.connective k)) operand
      return junctionTree k first more) := by
  unfold Routine.connected
  congr 1
  funext ⟨first, more⟩
  cases more <;> rfl

theorem imitates_connected {k : Connective} {operand : Routine Tree} {parser : Parser Tree}
    (h : Imitates left operand parser) :
    Imitates left (Routine.connected k operand) (Parser.connected k parser) := by
  intro tokens s hlevels
  rw [connected_eq, routine_connected_eq]
  exact h.chain (junctionTree k) tokens s hlevels

theorem imitates_equivalential {implication : Routine Tree} {parser : Parser Tree}
    (h : Imitates left implication parser) :
    Imitates left (Routine.equivalential implication) (Parser.equivalential parser) :=
  h.chain _

/-!
## All levels

Methods one level deeper that imitate their readers make such methods, and reading all
tokens goes in step as well.
-/

structure Routines.Imitate (routines : Routines) (left : Nat) (readers : Readers) : Prop where
  formula : Imitates left routines.formula readers.formula
  implication : Imitates left routines.implication readers.implication
  binary : Imitates left routines.binary readers.binary
  unary : Imitates left routines.unary readers.unary
  term : Imitates left routines.term readers.term
  factor : Imitates left routines.factor readers.factor

theorem Routines.imitate_above {deeper : Routines} {readers : Readers}
    (h : deeper.Imitate left readers) : deeper.above.Imitate (left + 1) readers.above := by
  have hfactor := (imitates_factor h.term h.factor).yields .factor
  have hterm := (imitates_sum ((imitates_product hfactor).yields .product)).yields .term
  have hprimary := imitates_primary
    (fun tokens s hlevels => (agrees_comparison hterm hlevels).tries .comparison) h.formula
  have hunary := (imitates_unary (hprimary.yields .primary) h.unary).yields .unary
  have hbinary := (imitates_binary hunary h.binary).yields .binary
  have hconjunction := (imitates_connected (k := .and) hbinary).yields (.junction .and)
  have hdisjunction := (imitates_connected (k := .or) hconjunction).yields (.junction .or)
  have himplication := (imitates_implicational hdisjunction h.implication).yields .implication
  exact ⟨(imitates_equivalential himplication).yields .formula, himplication, hbinary, hunary, hterm,
    hfactor⟩

theorem Routines.imitate_levels (n : Nat) : (Routines.levels n).Imitate n (Readers.levels n) := by
  induction n with
  | zero =>
      exact ⟨Imitates.zero _ _, Imitates.zero _ _, Imitates.zero _ _, Imitates.zero _ _,
        Imitates.zero _ _, Imitates.zero _ _⟩
  | succ n ih => exact Routines.imitate_above ih

theorem Routines.agrees_read (tokens : List Located) :
    ∃ outcome, Run.Agrees tokens Registers.start (fun _ _ => True) (Routines.read tokens) outcome ∧
      outcome.map Prod.fst = readTree tokens := by
  by_cases hnil : tokens = []
  · subst hnil
    exact ⟨.error .empty, Run.Agrees.failed trivial, rfl⟩
  · refine ⟨(Readers.levels (nestingLimit + 1)).formula (Cursor.start tokens) >>= fun result =>
      if result.2.rest = [] then .ok result else .error (result.2.unexpected .operatorOrEnd), ?_, ?_⟩
    · have hlevels : (Registers.start.cursor tokens).HasLevels (nestingLimit + 1) :=
        ⟨Nat.zero_le _, Nat.lt_of_lt_of_le (Nat.lt_succ_self _) (Nat.le_add_left _ _)⟩
      refine Run.Agrees.step (Run.Agrees.pure ⟨rfl, rfl⟩) ?_
      rw [if_neg hnil]
      refine ((Routines.imitate_levels _).formula tokens _ hlevels).bind _ ?_
      intro tree s _
      apply Run.Agrees.upcoming
      unfold Cursor.unexpected
      cases hrest : (s.cursor tokens).rest with
      | nil => exact Run.Agrees.pure trivial
      | cons located rest => exact Run.Agrees.failed trivial
    · unfold readTree
      rw [if_neg hnil]
      cases (Readers.levels (nestingLimit + 1)).formula (Cursor.start tokens) with
      | error e => rfl
      | ok result =>
          show Except.map Prod.fst (if result.2.rest = [] then _ else _) =
            if result.2.rest = [] then _ else _
          split
          · rfl
          · rfl

/-!
## What is done where

A run is asked about the actions in it, each with the registers as it finds them, and
about what the registers hold at any time.
-/

def Run.Does {α : Type} (run : Run α) (action : Action) (s : Registers) : Prop :=
  ∃ before after, run.actions = before ++ action :: after ∧ Registers.start.after before = s

def Run.Reaches {α : Type} (run : Run α) (s : Registers) : Prop :=
  ∃ before after, run.actions = before ++ after ∧ Registers.start.after before = s

theorem Run.Does.permits {α : Type} {run : Run α} {action : Action} {s : Registers}
    (h : run.Does action s) (hkeeps : Registers.start.Keeps run.actions) : s.Permits action := by
  rcases h with ⟨before, after, hactions, rfl⟩
  rw [hactions] at hkeeps
  exact (Registers.keeps_append.mp hkeeps).2.1

theorem Run.Reaches.depth_le {α : Type} {run : Run α} {s : Registers} (h : run.Reaches s)
    (hkeeps : Registers.start.Keeps run.actions) : s.depth ≤ nestingLimit + 1 := by
  rcases h with ⟨before, after, hactions, rfl⟩
  rw [hactions] at hkeeps
  exact (Registers.keeps_append.mp hkeeps).1.depth_le (Nat.zero_le _)

theorem Routines.keeps_read (tokens : List Located) :
    Registers.start.Keeps (Routines.read tokens).actions := by
  rcases Routines.agrees_read tokens with ⟨_, hagrees, _⟩
  exact hagrees.keeps

/-- The registers stay right through errors that are caught.  A method that returns a value is back
at the depth it was called at, with tokens taken; a try that comes to nothing is back at both, whatever
was read or raised in it; never is more than one level open beyond the limit; no level is closed where
none is open; and no bound of the recursion is ever met.  The result is that of the grammar. -/
theorem Routines.read_bookkeeping (tokens : List Located) :
    (Routines.read tokens).result = readTree tokens ∧
    (∀ name entry s, (Routines.read tokens).Does (.finish name entry .value) s →
      s.depth = entry.depth ∧ entry.position < s.position) ∧
    (∀ name entry s, (Routines.read tokens).Does (.finish name entry .nothing) s → s = entry) ∧
    (∀ s, (Routines.read tokens).Reaches s → s.depth ≤ nestingLimit + 1) ∧
    (∀ s, (Routines.read tokens).Does .leave s → 0 < s.depth) ∧
    (∀ s, ¬ (Routines.read tokens).Does .giveUp s) := by
  have hkeeps := Routines.keeps_read tokens
  refine ⟨?_, ?_, ?_, ?_, ?_, ?_⟩
  · rcases Routines.agrees_read tokens with ⟨outcome, hagrees, htree⟩
    exact hagrees.result_eq.trans htree
  · intro name entry s hdoes
    exact hdoes.permits hkeeps
  · intro name entry s hdoes
    exact hdoes.permits hkeeps
  · intro s hreaches
    exact hreaches.depth_le hkeeps
  · intro s hdoes
    exact hdoes.permits hkeeps
  · intro s hdoes
    exact hdoes.permits hkeeps

/-- A negation in parentheses.  The term that is tried first fails behind the negation sign, with a
level open, and the try ends where it started. -/
theorem Routines.read_bookkeeping_paren_not :
    let run := Routines.read [⟨.openParen, 0⟩, ⟨.not, 1⟩, ⟨.name "p", 2⟩, ⟨.closeParen, 3⟩]
    (run.Reaches ⟨2, 1⟩ ∧ 1 ≤ nestingLimit + 1) ∧
    (run.Does (.finish .comparison ⟨0, 0⟩ .nothing) ⟨0, 0⟩ ∧
      (⟨0, 0⟩ : Registers) = ⟨0, 0⟩) ∧
    (run.Does .leave ⟨3, 2⟩ ∧ 0 < 2) ∧
    run.Does (.finish .formula ⟨0, 0⟩ .value) ⟨4, 0⟩ ∧ 0 = 0 ∧ 0 < 4 := by
  intro run
  rcases Routines.read_bookkeeping
    [⟨.openParen, 0⟩, ⟨.not, 1⟩, ⟨.name "p", 2⟩, ⟨.closeParen, 3⟩] with
    ⟨_, hvalue, hnothing, hlimit, hleave, _⟩
  have hcaught : run.Reaches ⟨2, 1⟩ :=
    ⟨run.actions.take 9, run.actions.drop 9, by decide +kernel, by decide +kernel⟩
  have htried : run.Does (.finish .comparison ⟨0, 0⟩ .nothing) ⟨0, 0⟩ :=
    ⟨run.actions.take 10, run.actions.drop 11, by decide +kernel, by decide +kernel⟩
  have hclosed : run.Does .leave ⟨3, 2⟩ :=
    ⟨run.actions.take 24, run.actions.drop 25, by decide +kernel, by decide +kernel⟩
  have hread : run.Does (.finish .formula ⟨0, 0⟩ .value) ⟨4, 0⟩ :=
    ⟨run.actions.take 39, [], by decide +kernel, by decide +kernel⟩
  exact ⟨⟨hcaught, hlimit _ hcaught⟩, ⟨htried, hnothing _ _ _ htried⟩, ⟨hclosed, hleave _ hclosed⟩,
    hread, hvalue _ _ _ hread⟩

end Surface
end LinearTemporal

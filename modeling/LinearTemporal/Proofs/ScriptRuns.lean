import LinearTemporal.CommandLine.Surroundings

/-!
# Runs of scripts

A script runs through the things that it asks for, each with the answer that it was given, up to
its result.  Any answers may be given: nothing is assumed about files, the environment or the
terminal.  Running a script in given surroundings is one of its runs.
-/

namespace LinearTemporal
namespace CommandLine

structure Event where
  action : Action
  answer : action.Answer

/-!
An event is what a script asks for with the answer.  The standard output is what its
events print, one after the other.  That a text is all that is put out also means that
no file is written, since a file may be the standard output.
-/

def Action.isOutput : Action → Bool
  | print _ => true
  | writeFile .. => true
  | _ => false

namespace Event

def printed (event : Event) : String :=
  match event.action with
  | .print text => text
  | _ => ""

end Event

def standardOutput (events : List Event) : String :=
  String.join (events.map Event.printed)

theorem standardOutput_append (first second : List Event) :
    standardOutput (first ++ second) = standardOutput first ++ standardOutput second := by
  rw [standardOutput, List.map_append, String.join_append]
  rfl

/-- The text is all that is put out: it is printed, and no file is written. -/
structure Prints (events : List Event) (text : String) : Prop where
  output : standardOutput events = text
  no_file : ∀ event ∈ events, ∀ path content, event.action ≠ .writeFile path content

theorem Prints.append {first second : List Event} {text more : String}
    (h : Prints first text) (hmore : Prints second more) :
    Prints (first ++ second) (text ++ more) where
  output := by rw [standardOutput_append, h.output, hmore.output]
  no_file := List.forall_mem_append.mpr ⟨h.no_file, hmore.no_file⟩

namespace Surroundings

end Surroundings

/-!
## Scripts

As long as the same answers are given, the same script goes the same way.  A script is
silent if nothing is printed or written whatever is answered.
-/

namespace Script

variable {α β : Type}

inductive Runs : Script α → List Event → α → Prop where
  | done {result : α} : Runs (.done result) [] result
  | act {action : Action} {next : action.Answer → Script α} {answer : action.Answer}
      {events : List Event} {result : α} :
      Runs (next answer) events result → Runs (.act action next) (⟨action, answer⟩ :: events) result

theorem Runs.unique {script : Script α} {before before' after after' : List Event} {a a' : α}
    (h : script.Runs before a) (h' : script.Runs before' a')
    (heq : before ++ after = before' ++ after') : before = before' ∧ a = a' := by
  induction h generalizing before' with
  | done =>
      cases h' with
      | done => exact ⟨rfl, rfl⟩
  | act hnext ih =>
      cases h' with
      | act hnext' =>
          rw [List.cons_append, List.cons_append] at heq
          injection heq with hevent hrest
          cases hevent
          rcases ih hnext' hrest with ⟨rfl, rfl⟩
          exact ⟨rfl, rfl⟩

/-- Whatever is answered, nothing is printed or written. -/
def IsSilent : Script α → Prop
  | .done _ => True
  | .act action next => action.isOutput = false ∧ ∀ answer, (next answer).IsSilent

theorem IsSilent.bind {script : Script α} {next : α → Script β} (h : script.IsSilent)
    (hnext : ∀ a, (next a).IsSilent) : (script >>= next).IsSilent := by
  induction script with
  | done a => exact hnext a
  | act action rest ih => exact ⟨h.1, fun answer => ih answer (h.2 answer)⟩

end Script

/-!
## Sessions

A session ends with its result or with an error, after the events of its script.
-/

namespace Session

variable {α β : Type}

def Ends (session : Session α) (painted : Bool) (events : List Event) (result : Except String α) :
    Prop :=
  (session.run painted).run.Runs events result

def IsSilent (session : Session α) : Prop :=
  ∀ painted, (session.run painted).run.IsSilent

section

variable {painted : Bool} {events : List Event}

end

theorem IsSilent.bind {session : Session α} {next : α → Session β} (h : session.IsSilent)
    (hnext : ∀ a, (next a).IsSilent) : (session >>= next).IsSilent := by
  intro painted
  refine Script.IsSilent.bind (h painted) (fun given => ?_)
  cases given with
  | ok a => exact hnext a painted
  | error message => trivial

end Session
end CommandLine
end LinearTemporal

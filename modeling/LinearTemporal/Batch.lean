import LinearTemporal.Simplification.Run
import LinearTemporal.Surface.Grammar
import LinearTemporal.Verification

/-!
# Batches

A batch is a text with one formula a line.  Blank lines and lines that start
with a number sign hold none.  Every formula is simplified on its own; what
fails is recorded beside what succeeds.
-/

namespace LinearTemporal
namespace Batch

/-!
An item is a formula as it stands in a batch, with the number of its line.  It becomes
an entry if it can be read and simplified, and a failure otherwise.  A processor may be
told to stop at the first failure.
-/

structure Item where
  line : Nat
  input : String
  deriving DecidableEq, Repr

structure Entry where
  item : Item
  output : String
  metrics : Simplification.Metrics

inductive Cause where
  | unreadable (error : Surface.ParseError)
  | unverified (failure : Verification.Failure)

namespace Cause

def message : Cause → String
  | unreadable error => error.message
  | unverified failure => failure.message

end Cause

structure Failure where
  item : Item
  cause : Cause

/-- What became of a batch.  Items that are neither simplified nor failed were
not looked at. -/
structure Outcome where
  total : Nat
  entries : List Entry
  failures : List Failure

namespace Outcome

def isSuccess (outcome : Outcome) : Bool :=
  outcome.failures.isEmpty && outcome.entries.length == outcome.total

def skipped (outcome : Outcome) : Nat :=
  outcome.total - outcome.entries.length - outcome.failures.length

end Outcome

structure Processor where
  simplifier : Simplifier
  verify : Bool
  failFast : Bool

/-!
## Reading the lines

Lines are numbered from one, those without a formula included.
-/

def itemOfLine? (number : Nat) (line : String) : Option Item :=
  let input := Text.trim line
  if input = "" ∨ input.toList.head? = some '#' then none else some ⟨number, input⟩

def items (text : String) : List Item :=
  ((Text.lines text).zipIdx 1).filterMap (fun entry => itemOfLine? entry.2 entry.1)

/-!
## Processing

Items are processed in order and sorted into those that succeed and those that fail.
-/

namespace Processor

def processItem (p : Processor) (item : Item) : Except Failure Entry :=
  match Formula.parse item.input with
  | .error error => .error ⟨item, .unreadable error⟩
  | .ok f =>
      let (simplified, metrics) := p.simplifier.run f
      let entry : Entry := ⟨item, simplified.render, metrics⟩
      if p.verify then
        match Verification.verify f simplified with
        | .error failure => .error ⟨item, .unverified failure⟩
        | .ok _ => .ok entry
      else
        .ok entry

def processItems (p : Processor) : List Item → List Entry × List Failure
  | [] => ([], [])
  | item :: rest =>
      match p.processItem item with
      | .ok entry =>
          let (entries, failures) := p.processItems rest
          (entry :: entries, failures)
      | .error failure =>
          if p.failFast then
            ([], [failure])
          else
            let (entries, failures) := p.processItems rest
            (entries, failure :: failures)

def process (p : Processor) (text : String) : Outcome :=
  let found := items text
  let (entries, failures) := p.processItems found
  ⟨found.length, entries, failures⟩

end Processor

end Batch
end LinearTemporal

import LinearTemporal.Simplification.Run
import LinearTemporal.Toml.Quoted
import LinearTemporal.Toml.Reader

/-!
# Settings

What the command line program takes from its settings file, with a value for
everything that the file leaves out.
-/

namespace LinearTemporal

structure BatchSettings where
  progress : Bool := true
  failFast : Bool := false
  deriving DecidableEq, Repr

structure Settings where
  strategy : String := "aggressively"
  outputFormat : String := "text"
  maxPasses : Nat := 64
  colored : Bool := true
  logLevel : String := "warn"
  batch : BatchSettings := {}
  deriving DecidableEq, Repr

namespace Settings

/-!
## Reading

Keys that name no setting mean nothing.  A setting of the wrong type, or a number below
zero, spoils the document.
-/

def string? (d : Toml.Document) (path : Toml.Path) (default : String) : Option String :=
  match d.get? path with
  | none => some default
  | some (.scalar (.string text)) => some text
  | some _ => none

def boolean? (d : Toml.Document) (path : Toml.Path) (default : Bool) : Option Bool :=
  match d.get? path with
  | none => some default
  | some (.scalar (.boolean value)) => some value
  | some _ => none

def natural? (d : Toml.Document) (path : Toml.Path) (default : Nat) : Option Nat :=
  match d.get? path with
  | none => some default
  | some (.scalar (.integer value)) => if value < 0 then none else some value.toInt.toNat
  | some _ => none

def batchOf? (d : Toml.Document) : Option BatchSettings := do
  let default : BatchSettings := {}
  match d.get? ["batch"] with
  | some (.scalar _) => none
  | _ =>
      let progress ← boolean? d ["batch", "progress"] default.progress
      let failFast ← boolean? d ["batch", "fail_fast"] default.failFast
      return { progress := progress, failFast := failFast }

def ofDocument? (d : Toml.Document) : Option Settings := do
  let default : Settings := {}
  let strategy ← string? d ["strategy"] default.strategy
  let outputFormat ← string? d ["output_format"] default.outputFormat
  let maxPasses ← natural? d ["max_passes"] default.maxPasses
  let colored ← boolean? d ["colored"] default.colored
  let logLevel ← string? d ["log_level"] default.logLevel
  let batch ← batchOf? d
  return { strategy, outputFormat, maxPasses, colored, logLevel, batch }

def parse? (text : String) : Option Settings := do
  ofDocument? (← Toml.parse? text)

/-!
## Writing

What is written is read back as the same settings.
-/

def renderBool (value : Bool) : String :=
  if value then "true" else "false"

def render (s : Settings) : String :=
  let lines :=
    [ "strategy = " ++ Toml.quote s.strategy,
      "output_format = " ++ Toml.quote s.outputFormat,
      "max_passes = " ++ toString s.maxPasses,
      "colored = " ++ renderBool s.colored,
      "log_level = " ++ Toml.quote s.logLevel,
      "",
      "[batch]",
      "progress = " ++ renderBool s.batch.progress,
      "fail_fast = " ++ renderBool s.batch.failFast ]
  String.join (lines.map (fun line => line ++ "\n"))

/-!
## The simplifier that settings describe

The strategy is given by its name, which may name none.
-/

inductive Fault where
  | noPasses
  | unknownStrategy (error : Strategy.UnknownName)
  deriving DecidableEq, Repr

def Fault.message : Fault → String
  | noPasses => "max_passes must be at least 1"
  | unknownStrategy error =>
      "Invalid strategy in configuration or --strategy: " ++ error.message

def simplifier (s : Settings) : Except Fault Simplifier :=
  if s.maxPasses = 0 then
    .error .noPasses
  else
    match Strategy.ofName s.strategy with
    | .error error => .error (.unknownStrategy error)
    | .ok strategy => .ok { strategy := strategy, maxPasses := s.maxPasses }

end Settings

end LinearTemporal

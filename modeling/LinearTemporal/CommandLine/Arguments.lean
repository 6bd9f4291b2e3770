/-!
# Command line arguments

What the program is asked to do, read from its arguments.  Options may stand
anywhere, those that hold for all commands also after the name of a command; an
option that takes a value takes the next argument, unless the value is attached
to it.  Nothing may be given twice to one command.
-/

namespace LinearTemporal
namespace CommandLine

/-!
## What can be asked for

Options hold for all commands, and each command may ask for more.  Formats of the output
are named in any case of their letters where the settings name them.
-/

inductive OutputFormat where
  | text
  | json
  | stats
  deriving DecidableEq, Repr

namespace OutputFormat

def all : List OutputFormat :=
  [text, json, stats]

def name : OutputFormat → String
  | text => "text"
  | json => "json"
  | stats => "stats"

def ofName? (text : String) : Option OutputFormat :=
  all.find? (fun format => format.name = text)

def ofNameAnyCase? (text : String) : Option OutputFormat :=
  ofName? (String.ofList (text.toList.map Char.toLower))

end OutputFormat

structure Options where
  outputFormat : Option OutputFormat
  strategy : Option String
  maxPasses : Option Nat
  verify : Bool
  debug : Bool
  quiet : Bool
  noColor : Bool
  noConfig : Bool
  deriving DecidableEq, Repr

inductive ConfigAction where
  | showSettings
  | showPath
  | init
  deriving DecidableEq, Repr

inductive Command where
  | simplify (formula output : Option String) (analyze : Bool)
  | batch (files : List String) (failFast noProgress : Bool)
  | config (action : ConfigAction)
  deriving DecidableEq, Repr

inductive Request where
  | run (command : Command) (options : Options)
  | version (program : String)
  | help
  | rejected
  deriving DecidableEq, Repr

/-!
## Levels

The arguments up to the name of a command belong to one level, those after it to
the next.
-/

inductive Flag where
  | analyze
  | verify
  | debug
  | quiet
  | noColor
  | noConfig
  | failFast
  | noProgress
  | help
  | version
  deriving DecidableEq, Repr

inductive Setting where
  | output
  | outputFormat
  | strategy
  | maxPasses
  deriving DecidableEq, Repr

inductive Level where
  | main
  | batch
  | config
  | configAction (name : String)
  deriving DecidableEq, Repr

namespace Level

def flags (level : Level) : List (Flag × String × Option Char) :=
  let own : List (Flag × String × Option Char) :=
    match level with
    | main => [(.analyze, "analyze", some 'a')]
    | batch => [(.failFast, "fail-fast", none), (.noProgress, "no-progress", none)]
    | _ => []
  own ++
    [(.verify, "verify", none), (.debug, "debug", none), (.quiet, "quiet", some 'q'),
      (.noColor, "no-color", none), (.noConfig, "no-config", none), (.help, "help", some 'h'),
      (.version, "version", some 'V')]

def settings (level : Level) : List (Setting × String × Option Char) :=
  let own : List (Setting × String × Option Char) :=
    match level with
    | main => [(.output, "output", some 'o')]
    | _ => []
  own ++
    [(.outputFormat, "output-format", some 'F'), (.strategy, "strategy", some 's'),
      (.maxPasses, "max-passes", none)]

def commands : Level → List String
  | main => ["batch", "config", "help"]
  | config => ["show", "path", "init", "help"]
  | _ => []

def admitsPositional (level : Level) (count : Nat) (text : String) : Bool :=
  match level with
  | main => count == 0
  | batch => text != ""
  | _ => false

def program : Level → String
  | main => "ltlsimp"
  | batch => "ltlsimp-batch"
  | config => "ltlsimp-config"
  | configAction name => "ltlsimp-config-" ++ name

end Level

/-- What was found on one level. -/
structure Found where
  flags : List Flag
  values : List (Setting × String)
  positionals : List String
  positionalOnly : Bool

namespace Found

def empty : Found :=
  ⟨[], [], [], false⟩

def has (found : Found) (flag : Flag) : Bool :=
  found.flags.contains flag

def value? (found : Found) (setting : Setting) : Option String :=
  found.values.lookup setting

end Found

inductive LevelEnd where
  | done (found : Found)
  | command (found : Found) (name : String) (rest : List String)
  | version
  | help
  | rejected

/-!
## Values

A number has to fit into 64 bits, and may have a plus sign before it.  An argument that
looks like an option is no value.
-/

def readCount? (text : String) : Option Nat :=
  let digits :=
    match text.toList with
    | '+' :: rest => rest
    | cs => cs
  if digits.isEmpty || !digits.all Char.isDigit then
    none
  else
    let value := Nat.ofDigitChars 10 digits 0
    if value < 1 <<< 64 then some value else none

/-- Whether a text is a value that the setting can have. -/
def Setting.admits (setting : Setting) (text : String) : Bool :=
  match setting with
  | .output => text != ""
  | .outputFormat => (OutputFormat.ofName? text).isSome
  | .strategy => true
  | .maxPasses => (readCount? text).isSome

def looksLikeOption (text : String) : Bool :=
  match text.toList with
  | '-' :: _ :: _ => true
  | _ => false

/-!
## Reading one level

Short options may be written together.  A level ends with the arguments, with the name
of a command, which opens the next level, or with a fault.  In between a setting may
still lack its value.
-/

inductive FlagEffect where
  | goOn (found : Found)
  | stop (levelEnd : LevelEnd)

def Found.addFlag (found : Found) (flag : Flag) : FlagEffect :=
  match flag with
  | .help => .stop .help
  | .version => .stop .version
  | flag =>
      if found.has flag then .stop .rejected
      else .goOn { found with flags := flag :: found.flags }

def Found.addValue? (found : Found) (setting : Setting) (text : String) : Option Found :=
  if (found.value? setting).isSome || !setting.admits text then none
  else some { found with values := (setting, text) :: found.values }

inductive GroupEffect where
  | goOn (found : Found)
  | needsValue (found : Found) (setting : Setting)
  | stop (levelEnd : LevelEnd)

/-- Read short options that are written together.  The first one that takes a
value takes what is left of the group, if anything is. -/
def readGroup (level : Level) (found : Found) : List Char → GroupEffect
  | [] => .goOn found
  | c :: rest =>
      match level.flags.find? (fun entry => entry.2.2 == some c) with
      | some (flag, _) =>
          match found.addFlag flag with
          | .goOn found => readGroup level found rest
          | .stop levelEnd => .stop levelEnd
      | none =>
          match level.settings.find? (fun entry => entry.2.2 == some c) with
          | none => .stop .rejected
          | some (setting, _) =>
              match rest with
              | [] => .needsValue found setting
              | _ =>
                  let attached := if rest.head? = some '=' then rest.drop 1 else rest
                  match found.addValue? setting (String.ofList attached) with
                  | some found => .goOn found
                  | none => .stop .rejected

def readLong (level : Level) (found : Found) (text : List Char) : GroupEffect :=
  let name := String.ofList (text.takeWhile (· != '='))
  let attached? : Option String :=
    if text.contains '=' then some (String.ofList (text.drop (name.length + 1))) else none
  match level.flags.find? (fun entry => entry.2.1 == name), attached? with
  | some (flag, _), none =>
      match found.addFlag flag with
      | .goOn found => .goOn found
      | .stop levelEnd => .stop levelEnd
  | some _, some _ => .stop .rejected
  | none, _ =>
      match level.settings.find? (fun entry => entry.2.1 == name), attached? with
      | none, _ => .stop .rejected
      | some (setting, _), none => .needsValue found setting
      | some (setting, _), some attached =>
          match found.addValue? setting attached with
          | some found => .goOn found
          | none => .stop .rejected

inductive Shape where
  | separator
  | long (text : List Char)
  | group (text : List Char)
  | plain

def shapeOf (argument : String) : Shape :=
  match argument.toList with
  | ['-', '-'] => .separator
  | '-' :: '-' :: text => .long text
  | '-' :: c :: text => .group (c :: text)
  | _ => .plain

def readLevel (level : Level) (found : Found) (waiting : Option Setting) :
    List String → LevelEnd
  | [] => if waiting.isSome then .rejected else .done found
  | argument :: rest =>
      match waiting with
      | some setting =>
          if looksLikeOption argument then
            .rejected
          else
            match found.addValue? setting argument with
            | some found => readLevel level found none rest
            | none => .rejected
      | none =>
          if !found.positionalOnly && level.commands.contains argument then
            .command found argument rest
          else
            match (if found.positionalOnly then Shape.plain else shapeOf argument) with
            | .separator => readLevel level { found with positionalOnly := true } none rest
            | .long text =>
                match readLong level found text with
                | .goOn found => readLevel level found none rest
                | .needsValue found setting => readLevel level found (some setting) rest
                | .stop levelEnd => levelEnd
            | .group text =>
                match readGroup level found text with
                | .goOn found => readLevel level found none rest
                | .needsValue found setting => readLevel level found (some setting) rest
                | .stop levelEnd => levelEnd
            | .plain =>
                if level.admitsPositional found.positionals.length argument then
                  readLevel level
                    { found with positionals := found.positionals ++ [argument] } none rest
                else
                  .rejected

/-!
## Reading all levels

What a later level says counts.  Help may be asked for a command by its name.
-/

def optionsOf (levels : List Found) : Options :=
  let flag (f : Flag) : Bool := levels.any (fun found => found.has f)
  let value? (s : Setting) : Option String :=
    levels.reverse.findSome? (fun found => found.value? s)
  { outputFormat := (value? .outputFormat).bind OutputFormat.ofName?
    strategy := value? .strategy
    maxPasses := (value? .maxPasses).bind readCount?
    verify := flag .verify
    debug := flag .debug
    quiet := flag .quiet
    noColor := flag .noColor
    noConfig := flag .noConfig }

def configAction? : String → Option ConfigAction
  | "show" => some .showSettings
  | "path" => some .showPath
  | "init" => some .init
  | _ => none

def helpOn (commands topics : List String) : Request :=
  match topics with
  | [] => .help
  | [topic] => if commands.contains topic then .help else .rejected
  | ["config", topic] =>
      if commands.contains "config" && Level.config.commands.contains topic then .help
      else .rejected
  | _ => .rejected

def readBatch (outer : Found) (arguments : List String) : Request :=
  match readLevel .batch Found.empty none arguments with
  | .version => .version Level.batch.program
  | .help => .help
  | .done found =>
      if found.positionals.isEmpty then
        .rejected
      else
        .run (.batch found.positionals (found.has .failFast) (found.has .noProgress))
          (optionsOf [outer, found])
  | _ => .rejected

def readConfig (outer : Found) (arguments : List String) : Request :=
  match readLevel .config Found.empty none arguments with
  | .version => .version Level.config.program
  | .help => .help
  | .command found name rest =>
      match configAction? name with
      | none => helpOn Level.config.commands rest
      | some action =>
          let level := Level.configAction name
          match readLevel level Found.empty none rest with
          | .version => .version level.program
          | .help => .help
          | .done inner => .run (.config action) (optionsOf [outer, found, inner])
          | _ => .rejected
  | _ => .rejected

/-- Read the arguments of the program. -/
def readArguments (arguments : List String) : Request :=
  match readLevel .main Found.empty none arguments with
  | .version => .version Level.main.program
  | .help => .help
  | .rejected => .rejected
  | .done found =>
      .run (.simplify found.positionals.head? (found.value? .output) (found.has .analyze))
        (optionsOf [found])
  | .command found name rest =>
      match name with
      | "batch" => readBatch found rest
      | "config" => readConfig found rest
      | _ => helpOn Level.main.commands rest

end CommandLine
end LinearTemporal

import LinearTemporal.CommandLine.Account
import LinearTemporal.CommandLine.Arguments
import LinearTemporal.CommandLine.LogFilter
import LinearTemporal.CommandLine.Script
import LinearTemporal.Formula.Document
import LinearTemporal.Json.Printer
import LinearTemporal.Report.Batch
import LinearTemporal.Report.Comparison
import LinearTemporal.Settings

/-!
# The program

The commands of the command line program, each as a script.
-/

namespace LinearTemporal
namespace CommandLine

open Session

/-!
## The settings file

The home directory is the one that the environment names, or else that of the account.
A settings file in the current directory comes before one in the home directory.
-/

def settingsFileName : String := ".ltlsimprc"

def settingsVariable : String := "LTLSIMP_CONFIG"

def joinPath (directory file : String) : String :=
  if directory.endsWith "/" then directory ++ file else directory ++ "/" ++ file

def content? (path : String) : Session (Option String) := do
  let answer : Except FileError String ← perform (.readFile path)
  return answer.toOption

def accountHome? : Session (Option String) := do
  let status ← content? "/proc/self/status"
  let accounts ← content? "/etc/passwd"
  return do Account.home? (← accounts) (← Account.number? (← status))

def home? : Session (Option String) := do
  match ← environmentVariable "HOME" with
  | some home => if home = "" then accountHome? else return some home
  | none => accountHome?

def homeSettings? : Session (Option String) := do
  return (← home?).map (fun home => joinPath home settingsFileName)

/-- The settings file to read: the one that the environment names, or else the
one in the current directory, or else the one in the home directory. -/
def findSettings? : Session (Option String) := do
  match ← environmentVariable settingsVariable with
  | some path => return some path
  | none =>
      if ← pathExists settingsFileName then
        return some settingsFileName
      else
        match ← homeSettings? with
        | some path => return if ← pathExists path then some path else none
        | none => return none

def settingsPath : Session String := do
  match ← findSettings? with
  | some path => return path
  | none => return (← homeSettings?).getD settingsFileName

def loadSettings : Session Settings := do
  match ← findSettings? with
  | none => return {}
  | some path =>
      let content ← readFile path ("Failed to read config file: " ++ path)
      match Settings.parse? content with
      | some settings => return settings
      | none => throw ("Failed to parse config file: " ++ path ++ ": TOML parse error")

def settingsFor (options : Options) : Session Settings :=
  if options.noConfig then return {} else loadSettings

/-- Settings with what the options say in place of it. -/
def override (settings : Settings) (options : Options) : Settings :=
  { settings with
    strategy := options.strategy.getD settings.strategy
    maxPasses := options.maxPasses.getD settings.maxPasses
    colored := settings.colored && !options.noColor }

def outputFormat (settings : Settings) (options : Options) : Session OutputFormat :=
  match options.outputFormat with
  | some format => return format
  | none =>
      match OutputFormat.ofNameAnyCase? settings.outputFormat with
      | some format => return format
      | none =>
          throw ("Invalid output_format in configuration: invalid variant: " ++
            settings.outputFormat)

def simplifierOf (settings : Settings) : Session Simplifier :=
  match settings.simplifier with
  | .ok simplifier => return simplifier
  | .error fault => throw fault.message

/-!
## Simplifying one formula

The formula is an argument, or the standard input if the argument is a hyphen.  What is
printed about it depends on the options, and its result may go to a file.
-/

def readFormulaText (argument : String) : Session String := do
  if argument = "-" then
    readInput
  else
    return argument

def readFormula (argument : String) : Session (String × Formula) := do
  let text := Text.trim (← readFormulaText argument)
  match Formula.parse text with
  | .ok f => return (text, f)
  | .error error => throw ("Failed to parse formula `" ++ text ++ "`: " ++ error.message)

def simplificationJson (input : String) (simplified : Formula)
    (metrics : Simplification.Metrics) (verifiedOn : Option Nat) : Json :=
  .object
    ([ ("input", .string input),
        ("output", .string simplified.render),
        ("formula", simplified.toJson),
        ("metrics", metrics.toJson) ] ++
      match verifiedOn with
      | some words => [("verified_on", .ofNat words)]
      | none => [])

def renderResult (format : OutputFormat) (input : String) (simplified : Formula)
    (metrics : Simplification.Metrics) (verifiedOn : Option Nat) : String :=
  match format with
  | .text => simplified.render
  | .json => (simplificationJson input simplified metrics verifiedOn).render
  | .stats => String.intercalate "\n" metrics.statisticsLines

def verifyIf (wanted : Bool) (f simplified : Formula) : Session (Option Nat) :=
  if wanted then
    match Verification.verify f simplified with
    | .ok words => return some words
    | .error failure => throw failure.message
  else
    return none

def cautionUnlessConverged (metrics : Simplification.Metrics) : Session Unit := do
  unless metrics.converged do
    caution ("Stopped after " ++ toString metrics.passes ++
      " passes without reaching a fixpoint")

def compareIf (wanted : Bool) (f simplified : Formula) : Session Unit := do
  if wanted then
    printLines (Profile.comparisonLines (Profile.ofFormula f) (Profile.ofFormula simplified))
    printLine ""

def printStatusIf (wanted : Bool) (metrics : Simplification.Metrics)
    (verifiedOn : Option Nat) : Session Unit := do
  if wanted then
    success "Simplification complete"
    printLine ("  " ++ metrics.paintedSummary (← read))
    match verifiedOn with
    | some words => success ("Verified on " ++ toString words ++ " lasso words")
    | none => pure ()

def putOut (showStatus : Bool) (result : String) (output : Option String) : Session Unit := do
  match output with
  | some path =>
      writeFile path (result ++ "\n") "Failed to write output file"
      if showStatus then
        success ("Output written to: " ++ path)
  | none =>
      if showStatus then
        printLine ""
      printLine result

def simplifyOne (settings : Settings) (options : Options) (formula output : Option String)
    (analyze : Bool) : Session Unit := do
  let some argument := formula | throw "No formula given (see --help for usage)"
  let (text, f) ← readFormula argument
  let simplifier ← simplifierOf settings
  let (simplified, metrics) := simplifier.run f
  cautionUnlessConverged metrics
  let verifiedOn ← verifyIf options.verify f simplified
  compareIf analyze f simplified
  let format ← outputFormat settings options
  let showStatus := !options.quiet && (format == .text || output.isSome)
  printStatusIf showStatus metrics verifiedOn
  putOut showStatus (renderResult format text simplified metrics verifiedOn) output

/-!
## Batches

Files are processed in order, up to the first that fails if they are to fail fast.  Each
is reported on by itself, unless all reports come in one document at the end.
-/

def printHeader (title : String) : Session Unit := do
  printLine ""
  printLine (← styled ⟨.cyan, true⟩ title)
  printLine (← styled ⟨.cyan, false⟩ (String.ofList (List.replicate title.length '=')))

def printSummary (outcome : Batch.Outcome) : Session Unit := do
  printLines outcome.countLines
  success outcome.simplifiedCount
  printLines outcome.skippedLines
  unless outcome.failures.isEmpty do
    problem ("Failures: " ++ toString outcome.failures.length)
  printLines outcome.failureLines

def processFile (processor : Batch.Processor) (format : OutputFormat) (quiet : Bool)
    (file : String) : Session Batch.Outcome := do
  if !quiet && format != .json then
    printHeader ("Processing: " ++ file)
  let content ← readFile file ("Failed to read file: " ++ file)
  let outcome := processor.process content
  match format with
  | .text =>
      printLines (outcome.entries.map Batch.Entry.line)
      unless quiet do
        printSummary outcome
  | .stats => printSummary outcome
  | .json => pure ()
  return outcome

def processFiles (processor : Batch.Processor) (format : OutputFormat) (quiet : Bool) :
    List String → Session (List (String × Batch.Outcome))
  | [] => return []
  | file :: files => do
      let outcome ← processFile processor format quiet file
      if processor.failFast && !outcome.isSuccess then
        return [(file, outcome)]
      else
        let rest ← processFiles processor format quiet files
        return (file, outcome) :: rest

def runBatch (settings : Settings) (options : Options) (files : List String)
    (failFast : Bool) : Session Unit := do
  let format ← outputFormat settings options
  let simplifier ← simplifierOf settings
  let processor : Batch.Processor :=
    { simplifier := simplifier
      verify := options.verify
      failFast := failFast || settings.batch.failFast }
  let outcomes ← processFiles processor format options.quiet files
  if format == .json then
    printLine (Json.render (.array (outcomes.map (fun entry => entry.2.toJson entry.1))))
  let failed : Nat := outcomes.foldr (fun entry rest => entry.2.failures.length + rest) 0
  let total : Nat := outcomes.foldr (fun entry rest => entry.2.total + rest) 0
  if 0 < failed then
    throw (toString failed ++ " of " ++ toString total ++ " formulas failed")

/-!
## The settings file, once more

It can be shown, its place can be asked for, and it can be made anew.
-/

def runConfig (action : ConfigAction) (options : Options) : Session Unit := do
  match action with
  | .showSettings =>
      let settings ← settingsFor options
      printLine settings.render
  | .showPath => printLine (← settingsPath)
  | .init =>
      let path ← settingsPath
      if ← pathExists path then
        throw ("Config file already exists: " ++ path)
      let settings : Settings := {}
      writeFile path settings.render ("Failed to write config file: " ++ path)
      success ("Created config file: " ++ path)

/-!
## The log

Nothing is logged, but a log filter has to be one.
-/

/-- Check the filter that the log goes by: the one that the environment gives, or
else, and also where that is none, the one in the settings. -/
def checkLogFilter (settings : Settings) (options : Options) : Session Unit := do
  unless options.debug do
    let given ← environmentVariable "RUST_LOG"
    unless given.any LogFilter.isValid do
      match LogFilter.check settings.logLevel with
      | .ok () => pure ()
      | .error fault =>
          throw ("Invalid log level: " ++ settings.logLevel ++ ": " ++ fault.message)

/-!
## The whole program

Output is painted if the environment forces it, or else if it goes to a terminal and the
environment does not forbid it.  A session that fails ends with the exit code one.
-/

def paintsByDefault : Script Bool := do
  let force : Option String ← Script.perform (.environment "CLICOLOR_FORCE")
  let forbid : Option String ← Script.perform (.environment "NO_COLOR")
  let allow : Option String ← Script.perform (.environment "CLICOLOR")
  if force.any (· != "0") then
    return true
  else if forbid.isSome || allow = some "0" then
    return false
  else
    Script.perform .outputIsTerminal

def conclude {α : Type} (painted : Bool) (session : Session α) (next : α → Script UInt32) :
    Script UInt32 := do
  match ← (session.run painted).run with
  | .ok result => next result
  | .error message =>
      Script.perform (.warn (problemLine painted message))
      return 1

/-- A command that works by the settings.  It is painted if they allow it, but
what goes wrong with the settings file is told before they are known. -/
def runBySettings (painted : Bool) (options : Options)
    (session : Settings → Session Unit) : Script UInt32 :=
  conclude painted (settingsFor options) (fun loaded =>
    let settings := override loaded options
    let checked : Session Unit := do
      checkLogFilter settings options
      session settings
    conclude (painted && settings.colored) checked (fun _ => return 0))

def runCommand (command : Command) (options : Options) : Script UInt32 := do
  let painted ← paintsByDefault
  match command with
  | .config action =>
      conclude (painted && !options.noColor) (runConfig action options) (fun _ => return 0)
  | .batch files failFast _ =>
      runBySettings painted options (fun settings => runBatch settings options files failFast)
  | .simplify formula output analyze =>
      runBySettings painted options (fun settings =>
        simplifyOne settings options formula output analyze)

def version : String := "0.1.0"

def usage : String :=
  "Usage: ltlsimp [OPTIONS] [FORMULA] [COMMAND]\n\n" ++
    "Commands:\n" ++
    "  batch   Simplify every formula in the given files (one per line)\n" ++
    "  config  Configuration file management\n\n" ++
    "Options:\n" ++
    "  -o, --output <OUTPUT>                Output file (stdout if not specified)\n" ++
    "  -F, --output-format <OUTPUT_FORMAT>  Output format: text, json or stats\n" ++
    "  -s, --strategy <STRATEGY>            propositional, modal, pullup-x or aggressively\n" ++
    "      --max-passes <MAX_PASSES>        Upper bound on simplification passes\n" ++
    "  -a, --analyze                        Show measures before and after\n" ++
    "      --verify                         Check the result on every small lasso word\n" ++
    "  -q, --quiet                          Minimal output\n" ++
    "      --no-config                      Don't load configuration file\n"

/-- The program, as a script that ends with the exit code. -/
def program (arguments : List String) : Script UInt32 :=
  match readArguments arguments with
  | .rejected => do
      Script.perform (.warn "error: invalid arguments (see --help for usage)\n")
      return 2
  | .help => do
      Script.perform (.print usage)
      return 0
  | .version name => do
      Script.perform (.print (name ++ " " ++ version ++ "\n"))
      return 0
  | .run command options => runCommand command options

end CommandLine
end LinearTemporal

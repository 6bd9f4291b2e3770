import LinearTemporal.Text.Style

/-!
# Scripts

What the program does to the world around it, as a value: a script asks for one
thing after another, and goes on with each answer.  Running a script is left to
whoever can give the answers.
-/

namespace LinearTemporal
namespace CommandLine

inductive FileError where
  | notFound
  | notDirectory
  | isDirectory
  | nameTooLong
  | noRoom
  | denied
  | other (text : String)
  deriving DecidableEq, Repr

namespace FileError

def message : FileError → String
  | notFound => "No such file or directory (os error 2)"
  | notDirectory => "Not a directory (os error 20)"
  | isDirectory => "Is a directory (os error 21)"
  | nameTooLong => "File name too long (os error 36)"
  | noRoom => "No space left on device (os error 28)"
  | denied => "Permission denied (os error 13)"
  | other text => text

end FileError

inductive Action where
  | readFile (path : String)
  | writeFile (path content : String)
  | pathExists (path : String)
  | environment (name : String)
  | readInput
  | outputIsTerminal
  | print (text : String)
  | warn (text : String)

/-- The answers that an action may get. -/
def Action.Answer : Action → Type
  | readFile _ => Except FileError String
  | writeFile .. => Except FileError Unit
  | pathExists _ => Bool
  | environment _ => Option String
  | readInput => String
  | outputIsTerminal => Bool
  | print _ => Unit
  | warn _ => Unit

inductive Script (α : Type) where
  | done (result : α)
  | act (action : Action) (next : action.Answer → Script α)

namespace Script

/-!
A script goes on with the answer to what it asked for, whichever it is.  What is printed
goes to the standard output, and a warning to the error output.
-/

def bind {α β : Type} : Script α → (α → Script β) → Script β
  | done result, f => f result
  | act action next, f => act action (fun answer => (next answer).bind f)

instance : Monad Script where
  pure := done
  bind := bind

def perform (action : Action) : Script action.Answer :=
  act action done

def run {m : Type → Type} [Monad m] {α : Type} (answer : (action : Action) → m action.Answer) :
    Script α → m α
  | done result => pure result
  | act action next => do
      let given ← answer action
      (next given).run answer

end Script

/-- A script that may end with an error message, given whether its output is
painted. -/
abbrev Session := ReaderT Bool (ExceptT String Script)

def problemLine (painted : Bool) (text : String) : String :=
  Text.Style.paint ⟨.red, true⟩ painted "✗" ++ " " ++ text ++ "\n"

namespace Session

def perform (action : Action) : Session action.Answer :=
  fun _ => ExceptT.lift (Script.perform action)

def styled (style : Text.Style) (text : String) : Session String := do
  return style.paint (← read) text

def print (text : String) : Session Unit :=
  perform (.print text)

def printLine (text : String) : Session Unit :=
  print (text ++ "\n")

def printLines (lines : List String) : Session Unit :=
  lines.forM printLine

def warn (text : String) : Session Unit :=
  perform (.warn text)

def success (text : String) : Session Unit := do
  printLine ((← styled ⟨.green, true⟩ "✓") ++ " " ++ text)

def problem (text : String) : Session Unit := do
  warn (problemLine (← read) text)

def caution (text : String) : Session Unit := do
  warn ((← styled ⟨.yellow, true⟩ "!") ++ " " ++ text ++ "\n")

def readFile (path context : String) : Session String := do
  let answer : Except FileError String ← perform (.readFile path)
  match answer with
  | .ok content => return content
  | .error error => throw (context ++ ": " ++ error.message)

def writeFile (path content context : String) : Session Unit := do
  let answer : Except FileError Unit ← perform (.writeFile path content)
  match answer with
  | .ok () => return
  | .error error => throw (context ++ ": " ++ error.message)

def pathExists (path : String) : Session Bool :=
  perform (.pathExists path)

def environmentVariable (name : String) : Session (Option String) :=
  perform (.environment name)

def readInput : Session String :=
  perform .readInput

end Session

end CommandLine
end LinearTemporal

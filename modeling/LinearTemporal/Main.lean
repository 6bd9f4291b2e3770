import LinearTemporal.CommandLine.Program

/-!
# Running the program

Scripts are carried out on the files, the environment and the standard streams
of the process.
-/

namespace LinearTemporal
namespace CommandLine

def fileErrorOf : IO.Error → FileError
  | .noFileOrDirectory .. => .notFound
  | .noSuchThing .. => .notFound
  | .permissionDenied .. => .denied
  | .inappropriateType _ 20 _ => .notDirectory
  | .inappropriateType _ 21 _ => .isDirectory
  | .invalidArgument _ 36 _ => .nameTooLong
  | .resourceExhausted _ 28 _ => .noRoom
  | error => .other (toString error)

def attempt {α : Type} (action : IO α) : IO (Except FileError α) := do
  match ← action.toBaseIO with
  | .ok result => return .ok result
  | .error error => return .error (fileErrorOf error)

def readAll (path : String) : IO String := do
  let file ← IO.FS.Handle.mk path .read
  file.readToEnd

/-- Write a file anew; it is written out before this ends, so that a lack of
room is noticed. -/
def writeAll (path content : String) : IO Unit := do
  let file ← IO.FS.Handle.mk path .write
  file.putStr content
  file.flush

def isThere (path : String) : IO Bool := do
  match ← attempt (IO.FS.Handle.mk path .read) with
  | .ok _ => return true
  | .error .isDirectory => return true
  | .error .denied => return true
  | .error _ => return false

def printNow (text : String) : IO Unit := do
  let output ← IO.getStdout
  output.putStr text
  output.flush

/-- Do one thing, and give the answer. -/
def answerInProcess : (action : Action) → IO action.Answer
  | .readFile path => attempt (readAll path)
  | .writeFile path content => attempt (writeAll path content)
  | .pathExists path => isThere path
  | .environment name => IO.getEnv name
  | .readInput => do (← IO.getStdin).readToEnd
  | .outputIsTerminal => do (← IO.getStdout).isTty
  | .print text => printNow text
  | .warn text => IO.eprint text

end CommandLine
end LinearTemporal

def main (arguments : List String) : IO UInt32 :=
  (LinearTemporal.CommandLine.program arguments).run
    LinearTemporal.CommandLine.answerInProcess

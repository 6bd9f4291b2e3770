import LinearTemporal.CommandLine.FileTree

/-!
# Surroundings

What a script can find and leave behind, as a value, and what running the script
there comes to.  The standard streams are no terminals.
-/

namespace LinearTemporal
namespace CommandLine

structure Surroundings where
  tree : FileTree
  environment : List (String × String)
  input : String
  output : String
  errors : String

namespace Surroundings

def fresh (tree : FileTree) (environment : List (String × String)) (input : String) :
    Surroundings :=
  ⟨tree, environment, input, "", ""⟩

def takeInput (s : Surroundings) : String × Surroundings :=
  (s.input, { s with input := "" })

def print (s : Surroundings) (text : String) : Surroundings :=
  { s with output := s.output ++ text }

def warn (s : Surroundings) (text : String) : Surroundings :=
  { s with errors := s.errors ++ text }

def read (s : Surroundings) : Node → Except FileError String × Surroundings
  | .directory => (.error .isDirectory, s)
  | .file content => (.ok content, s)
  | .device .standardInput => (.ok s.takeInput.1, s.takeInput.2)
  | .device _ => (.ok "", s)

def readFile (s : Surroundings) (path : String) : Except FileError String × Surroundings :=
  match s.tree.find path with
  | .ok node => s.read node
  | .error error => (.error error, s)

def writeTo (s : Surroundings) (content : String) :
    Device → Except FileError Unit × Surroundings
  | .null => (.ok (), s)
  | .full => (.error .noRoom, s)
  | .standardInput => (.ok (), s)
  | .standardOutput => (.ok (), s.print content)
  | .errorOutput => (.ok (), s.warn content)

def writeFile (s : Surroundings) (path content : String) :
    Except FileError Unit × Surroundings :=
  match s.tree.placeToWrite path with
  | .error error => (.error error, s)
  | .ok place =>
      match s.tree.node? place with
      | some .directory => (.error .isDirectory, s)
      | some (.device device) => s.writeTo content device
      | _ => (.ok (), { s with tree := s.tree.put place (.file content) })

def answer : (action : Action) → StateM Surroundings action.Answer
  | .readFile path => fun s => s.readFile path
  | .writeFile path content => fun s => s.writeFile path content
  | .pathExists path => fun s => (s.tree.pathExists path, s)
  | .environment name => fun s => (s.environment.lookup name, s)
  | .readInput => fun s => s.takeInput
  | .outputIsTerminal => fun s => (false, s)
  | .print text => fun s => ((), s.print text)
  | .warn text => fun s => ((), s.warn text)

end Surroundings

/-- Run a script, and give its result with what is then around it. -/
def Script.runIn {α : Type} (script : Script α) (surroundings : Surroundings) :
    α × Surroundings :=
  (script.run Surroundings.answer).run surroundings

end CommandLine
end LinearTemporal

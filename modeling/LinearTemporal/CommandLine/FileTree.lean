import LinearTemporal.CommandLine.Script

/-!
# File trees

Directories, files and devices as a value.  A path is followed name by name,
from the root if it starts with a slash and from the current directory
otherwise.
-/

namespace LinearTemporal
namespace CommandLine

abbrev Path :=
  List String

inductive Device where
  /-- Holds nothing, and takes everything. -/
  | null
  /-- Holds nothing, and takes nothing. -/
  | full
  | standardInput
  | standardOutput
  | errorOutput
  deriving DecidableEq, Repr

inductive Node where
  | directory
  | file (content : String)
  | device (device : Device)
  deriving DecidableEq, Repr

structure FileTree where
  current : Path
  nodes : List (Path × Node)

namespace FileTree

/-!
The root is always there, whatever the tree lists.
-/

def node? (tree : FileTree) (place : Path) : Option Node :=
  if place.isEmpty then some .directory else tree.nodes.lookup place

/-!
## Following paths

Names and paths are limited in their number of bytes, and the parent of the root is the
root.  There need not be anything at the last name of a path, which matters where a file
is to be written.
-/

def nameLimit : Nat :=
  255

def pathLimit : Nat :=
  4095

/-- The place that names lead to.  There need not be anything at the last name.
The parent of the root is the root. -/
def follow (tree : FileTree) (place : Path) : List String → Except FileError Path
  | [] => .ok place
  | name :: names =>
      match tree.node? place with
      | none => .error .notFound
      | some .directory =>
          if name = "" || name = "." then tree.follow place names
          else if name = ".." then tree.follow place.dropLast names
          else if nameLimit < name.utf8ByteSize then .error .nameTooLong
          else tree.follow (place ++ [name]) names
      | some _ => .error .notDirectory

def start (tree : FileTree) (path : String) : Path :=
  if path.startsWith "/" then [] else tree.current

def checkPath (path : String) : Except FileError Unit :=
  if path = "" then .error .notFound
  else if pathLimit < path.utf8ByteSize then .error .nameTooLong
  else .ok ()

def find (tree : FileTree) (path : String) : Except FileError Node := do
  checkPath path
  let place ← tree.follow (tree.start path) (path.splitOn "/")
  match tree.node? place with
  | some node => return node
  | none => throw .notFound

def pathExists (tree : FileTree) (path : String) : Bool :=
  match tree.find path with
  | .ok _ => true
  | .error _ => false

/-- The place that a path names for writing, where there need not be anything.  A
path that ends with a slash names a directory, whatever there may be. -/
def placeToWrite (tree : FileTree) (path : String) : Except FileError Path := do
  checkPath path
  let names := ((path.splitOn "/").reverse.dropWhile String.isEmpty).reverse
  if path.endsWith "/" then
    let _ ← tree.follow (tree.start path) (names.dropLast ++ ["."])
    throw .isDirectory
  tree.follow (tree.start path) names

/-!
## Changes

A node takes the place of what there may be.  What changed is told by the files below
the current directory that are new, or have another content than before.
-/

def put (tree : FileTree) (place : Path) (node : Node) : FileTree :=
  { tree with nodes := (place, node) :: tree.nodes.filter (fun entry => entry.1 != place) }

theorem node?_put (tree : FileTree) (place : Path) (node : Node) (h : place ≠ []) :
    (tree.put place node).node? place = some node := by
  simp [put, node?, h]

def relative? (tree : FileTree) (place : Path) : Option String :=
  if tree.current.isPrefixOf place then
    some (String.intercalate "/" (place.drop tree.current.length))
  else
    none

def changesSince (tree older : FileTree) : List (String × String) :=
  tree.nodes.filterMap (fun entry =>
    match entry.2 with
    | .file content =>
        if older.node? entry.1 = some entry.2 then none
        else (tree.relative? entry.1).map (fun path => (path, content))
    | _ => none)

/-!
## Whole trees

A usual system has the directories and devices that systems have by convention, and
files that tell whose program is running.  Others are made from it by planting files
below the current directory, with the directories that lead there.
-/

def usualDirectories : List Path :=
  [ ["bin"], ["boot"], ["dev"], ["dev", "fd"], ["dev", "pts"], ["dev", "shm"], ["etc"], ["home"],
    ["lib"], ["media"], ["mnt"], ["opt"], ["proc"], ["proc", "self"], ["proc", "self", "fd"],
    ["root"], ["run"], ["sbin"], ["srv"], ["sys"], ["tmp"], ["usr"], ["usr", "bin"],
    ["usr", "lib"], ["usr", "local"], ["usr", "sbin"], ["usr", "share"], ["var"],
    ["var", "log"], ["var", "tmp"] ]

def usualDevices : List (Path × Device) :=
  [ (["dev", "null"], .null), (["dev", "full"], .full),
    (["dev", "stdin"], .standardInput), (["dev", "fd", "0"], .standardInput),
    (["proc", "self", "fd", "0"], .standardInput),
    (["dev", "stdout"], .standardOutput), (["dev", "fd", "1"], .standardOutput),
    (["proc", "self", "fd", "1"], .standardOutput),
    (["dev", "stderr"], .errorOutput), (["dev", "fd", "2"], .errorOutput),
    (["proc", "self", "fd", "2"], .errorOutput) ]

/-- The files that tell whose program is running: the list of accounts, with the
system's own account only, and the state of the process, which is that account's. -/
def usualFiles : List (Path × String) :=
  [ (["etc", "passwd"], "root:x:0:0:root:/root:/bin/sh\n"),
    (["proc", "self", "status"], "Uid:\t0\t0\t0\t0\n") ]

def usual : FileTree :=
  { current := ["tmp", "work"]
    nodes :=
      (["tmp", "work"], .directory) ::
        (usualDirectories.map (fun place => (place, Node.directory)) ++
          usualDevices.map (fun entry => (entry.1, Node.device entry.2)) ++
          usualFiles.map (fun entry => (entry.1, Node.file entry.2))) }

def ancestors (place : Path) : List Path :=
  (List.range (place.length - 1)).map (fun count => place.take (count + 1))

def plant (tree : FileTree) (path : String) (node : Node) : FileTree :=
  let place := tree.current ++ path.splitOn "/"
  let grown := (ancestors place).foldl (fun tree above => tree.put above .directory) tree
  grown.put place node

def ofFiles (files : List (String × String)) (directories : List String) : FileTree :=
  let prepared := directories.foldl (fun tree path => tree.plant path .directory) usual
  files.foldl (fun tree file => tree.plant file.1 (.file file.2)) prepared

end FileTree

end CommandLine
end LinearTemporal

/-!
# TOML documents

A document assigns scalars to paths of keys and names the tables that its
headers and dotted keys define.  This module says which assignments and headers
may come after which: nothing is defined twice.
-/

namespace LinearTemporal
namespace Toml

inductive Scalar where
  | string (text : String)
  | integer (value : Int64)
  | float
  | boolean (value : Bool)
  deriving DecidableEq, Repr

abbrev Path := List String

structure Document where
  assigned : List (Path × Scalar)
  /-- Tables that have a header of their own. -/
  headers : List Path
  /-- Tables that dotted keys define. -/
  dotted : List Path
  deriving Repr

inductive Item where
  | scalar (value : Scalar)
  | table
  deriving DecidableEq, Repr

namespace Document

def empty : Document :=
  ⟨[], [], []⟩

def ancestors (path : Path) : List Path :=
  ((List.range path.length).map path.take).filter (fun beginning => !beginning.isEmpty)

def hasScalar (d : Document) (path : Path) : Bool :=
  d.assigned.any (fun entry => entry.1 == path)

/-- Whether a path is a table because of headers, its own or one below it. -/
def hasHeader (d : Document) (path : Path) : Bool :=
  d.headers.any (fun header => path.isPrefixOf header)

def hasTable (d : Document) (path : Path) : Bool :=
  d.hasHeader path || d.dotted.contains path

/-- Whether a path is a table only because of headers below it. -/
def isImplied (d : Document) (path : Path) : Bool :=
  d.hasHeader path && !d.headers.contains path && !d.dotted.contains path

/-!
The tables on the way to a dotted key must have no header of their own, and the last of
them must not be implied by headers below it.  A header may open a table that is only
implied so far, and no other one that is there.
-/

def assign? (d : Document) (table key : Path) (value : Scalar) : Option Document :=
  let path := table ++ key
  let passed := (ancestors path).filter (fun beginning => table.length < beginning.length)
  if d.hasScalar path || d.hasTable path then
    none
  else if passed.any (fun beginning => d.hasScalar beginning || d.headers.contains beginning) then
    none
  else if passed.getLast?.any d.isImplied then
    none
  else
    let fresh := passed.filter (fun beginning => !d.hasTable beginning)
    some { d with assigned := d.assigned ++ [(path, value)], dotted := d.dotted ++ fresh }

def openTable? (d : Document) (path : Path) : Option Document :=
  if d.headers.contains path || d.hasScalar path || d.dotted.contains path then
    none
  else if (ancestors path).any d.hasScalar then
    none
  else
    some { d with headers := d.headers ++ [path] }

def get? (d : Document) (path : Path) : Option Item :=
  match d.assigned.find? (fun entry => entry.1 == path) with
  | some entry => some (.scalar entry.2)
  | none => if d.hasTable path then some .table else none

end Document

end Toml
end LinearTemporal

import LinearTemporal.Formula.Junction
import LinearTemporal.Json.Basic

/-!
# Formulas as JSON documents

A term or formula is an object whose one member is named for the root
constructor.  A document may list the operands of a junction in any order, with
repetitions, nested or fewer than two; the formula read from it is in canonical
shape all the same.

A document is taken as the value that was read from a text, in which an object has
no two members of one name.  The parts of a proposition and of a comparison are
members of an object, in any order, and members with other names are passed over.
Reading the text itself differs in two points that are not described here: it also
takes these parts from an array that lists them in order, and it refuses an object
that names one of them twice.
-/

namespace LinearTemporal

namespace Comparison

/-!
A comparison is written as its tag alone.  Read, the tag may also be the name of a
member with nothing to it.
-/

def tag : Comparison → String
  | leq => "Leq"
  | lt => "Lt"
  | geq => "Geq"
  | gt => "Gt"

def ofTag? (text : String) : Option Comparison :=
  all.find? (fun op => op.tag = text)

def toJson (op : Comparison) : Json :=
  .string op.tag

def ofJson? : Json → Option Comparison
  | .string text => ofTag? text
  | .object [(text, .null)] => ofTag? text
  | _ => none

end Comparison

/-!
## Terms

Each constructor has its tag, and so has each operation.  An integer that does not fit
into 64 bits spoils the document.
-/

namespace Arithmetic

def tag : Arithmetic → String
  | add => "Add"
  | sub => "Sub"
  | mul => "Mul"

def ofTag? : String → Option Arithmetic
  | "Add" => some add
  | "Sub" => some sub
  | "Mul" => some mul
  | _ => none

end Arithmetic

namespace Term

def toJson : Term → Json
  | var name => .object [("Var", .string name)]
  | int value => .object [("Int", .ofInt64 value)]
  | neg body => .object [("Neg", body.toJson)]
  | binary op left right => .object [(op.tag, .array [left.toJson, right.toJson])]

def ofJson? : Json → Option Term
  | .object [("Var", name)] => name.string?.map var
  | .object [("Int", value)] => value.int64?.map int
  | .object [("Neg", body)] => (ofJson? body).map neg
  | .object [(tag, .array [left, right])] => do
      let op ← Arithmetic.ofTag? tag
      let left ← ofJson? left
      let right ← ofJson? right
      return binary op left right
  | _ => none

end Term

/-!
## Formulas

Conjunctions and disjunctions have tags of their own.  A document is first read as it
stands; its junctions are put in canonical shape afterwards.
-/

namespace Formula

mutual

def toJson : Formula → Json
  | const value => .object [("Const", .bool value)]
  | literal name negated =>
      .object [("Literal", .object [("name", .string name), ("negated", .bool negated)])]
  | atom left op right =>
      .object [("Atom", .object
        [("left", left.toJson), ("op", op.toJson), ("right", right.toJson)])]
  | not body => .object [("Not", body.toJson)]
  | next body => .object [("Next", body.toJson)]
  | always body => .object [("Globally", body.toJson)]
  | eventually body => .object [("Finally", body.toJson)]
  | untl left right => .object [("Until", .array [left.toJson, right.toJson])]
  | release left right => .object [("Release", .array [left.toJson, right.toJson])]
  | junction .and operands => .object [("And", .array (toJsonAll operands))]
  | junction .or operands => .object [("Or", .array (toJsonAll operands))]

def toJsonAll : List Formula → List Json
  | [] => []
  | f :: fs => f.toJson :: toJsonAll fs

end

def literalOfMembers? (members : List (String × Json)) : Option Formula := do
  let name ← (← members.lookup "name").string?
  let negated ← (← members.lookup "negated").bool?
  return literal name negated

def atomOfMembers? (members : List (String × Json)) : Option Formula := do
  let left ← Term.ofJson? (← members.lookup "left")
  let op ← Comparison.ofJson? (← members.lookup "op")
  let right ← Term.ofJson? (← members.lookup "right")
  return atom left op right

mutual

/-- The formula that a document spells out, its junctions as they are listed. -/
def literally? : Json → Option Formula
  | .object [("Const", value)] => value.bool?.map const
  | .object [("Literal", .object members)] => literalOfMembers? members
  | .object [("Atom", .object members)] => atomOfMembers? members
  | .object [("Not", body)] => (literally? body).map not
  | .object [("Next", body)] => (literally? body).map next
  | .object [("Globally", body)] => (literally? body).map always
  | .object [("Finally", body)] => (literally? body).map eventually
  | .object [("Until", .array [left, right])] => do
      let left ← literally? left
      let right ← literally? right
      return untl left right
  | .object [("Release", .array [left, right])] => do
      let left ← literally? left
      let right ← literally? right
      return release left right
  | .object [("And", .array operands)] => (literallyAll? operands).map (junction .and)
  | .object [("Or", .array operands)] => (literallyAll? operands).map (junction .or)
  | _ => none

def literallyAll? : List Json → Option (List Formula)
  | [] => some []
  | item :: items => do
      let f ← literally? item
      let fs ← literallyAll? items
      return f :: fs

end

def ofJson? (document : Json) : Option Formula :=
  (literally? document).map normalize

end Formula

end LinearTemporal

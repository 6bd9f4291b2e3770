/-!
# JSON documents

The values that reports and formulas are exchanged as.  Members of an object
keep the order in which they are listed.
-/

namespace LinearTemporal

inductive Json where
  | null
  | bool (value : Bool)
  | integer (value : Int)
  /-- A number that is not written as an integer, as it is written. -/
  | decimal (text : String)
  | string (text : String)
  | array (items : List Json)
  | object (members : List (String × Json))
  deriving Repr

namespace Json

instance : Inhabited Json :=
  ⟨null⟩

def bool? : Json → Option Bool
  | bool value => some value
  | _ => none

def string? : Json → Option String
  | string text => some text
  | _ => none

def object? : Json → Option (List (String × Json))
  | object members => some members
  | _ => none

def int64? : Json → Option Int64
  | integer value =>
      if Int64.minValue.toInt ≤ value ∧ value ≤ Int64.maxValue.toInt then
        some (Int64.ofInt value)
      else
        none
  | _ => none

def ofInt64 (value : Int64) : Json :=
  integer value.toInt

def ofNat (value : Nat) : Json :=
  integer value

def ofStrings (texts : List String) : Json :=
  array (texts.map string)

def strings? : Json → Option (List String)
  | array items => items.mapM string?
  | _ => none

end Json

end LinearTemporal

import LinearTemporal.Json.Basic

/-!
# JSON as text

Documents are written with one member or item a line, two blanks further in
than what they belong to.  Strings are quoted; only quotes, backslashes and
control characters are escaped.
-/

namespace LinearTemporal
namespace Json

/-!
## Strings

Control characters that have no letter of their own are written with four hexadecimal
digits.
-/

def hexDigit (n : Nat) : Char :=
  (Nat.toDigits 16 n).getD 0 '0'

def escapeChar (c : Char) : List Char :=
  match c with
  | '"' => ['\\', '"']
  | '\\' => ['\\', '\\']
  | '\n' => ['\\', 'n']
  | '\r' => ['\\', 'r']
  | '\t' => ['\\', 't']
  | c =>
      if c.toNat = 8 then ['\\', 'b']
      else if c.toNat = 12 then ['\\', 'f']
      else if c.toNat < 32 then
        ['\\', 'u', '0', '0', hexDigit (c.toNat / 16), hexDigit (c.toNat % 16)]
      else [c]

def quote (text : String) : String :=
  String.ofList ('"' :: (text.toList.flatMap escapeChar ++ ['"']))

/-!
## Documents

An array or an object without members is written as its brackets alone.
-/

def indentation (depth : Nat) : String :=
  String.ofList (List.replicate (2 * depth) ' ')

def enclose (depth : Nat) (opening closing : String) (lines : List String) : String :=
  if lines.isEmpty then
    opening ++ closing
  else
    opening ++ "\n" ++
      String.intercalate ",\n" (lines.map (fun line => indentation (depth + 1) ++ line)) ++
      "\n" ++ indentation depth ++ closing

mutual

def renderAt (depth : Nat) : Json → String
  | null => "null"
  | bool true => "true"
  | bool false => "false"
  | integer value => toString value
  | decimal text => text
  | string text => quote text
  | array items => enclose depth "[" "]" (renderItems (depth + 1) items)
  | object members => enclose depth "\x7b" "\x7d" (renderMembers (depth + 1) members)

def renderItems (depth : Nat) : List Json → List String
  | [] => []
  | item :: items => renderAt depth item :: renderItems depth items

def renderMembers (depth : Nat) : List (String × Json) → List String
  | [] => []
  | (key, value) :: members =>
      (quote key ++ ": " ++ renderAt depth value) :: renderMembers depth members

end

def render (document : Json) : String :=
  renderAt 0 document

end Json
end LinearTemporal

import LinearTemporal.Surface.ParseError
import LinearTemporal.Text.Blank

/-!
# From text to tokens

Blanks separate tokens and mean nothing else.  Between blanks the longest word,
number or symbol is taken that the text starts with.
-/

namespace LinearTemporal
namespace Surface

def isNameStart (c : Char) : Bool :=
  c.isAlpha || c == '_'

def isNameChar (c : Char) : Bool :=
  c.isAlphanum || c == '_'

/-- The token that a text starts with, and its characters. -/
def lexeme? : List Char → Option (Token × List Char)
  | [] => none
  | c :: cs =>
      if isNameStart c then
        let word := c :: cs.takeWhile isNameChar
        some (Token.ofWord (String.ofList word), word)
      else if c.isDigit then
        let number := c :: cs.takeWhile Char.isDigit
        some (.digits (String.ofList number), number)
      else
        (Token.symbols.find? (fun entry => entry.1.toList.isPrefixOf (c :: cs))).map
          (fun entry => (entry.2, entry.1.toList))

def byteLength (cs : List Char) : Nat :=
  cs.foldr (fun c rest => c.utf8Size + rest) 0

def scan (offset : Nat) : List Char → Except ParseError (List Located)
  | [] => .ok []
  | c :: cs =>
      if Text.isBlank c then
        scan (offset + c.utf8Size) cs
      else
        match lexeme? (c :: cs) with
        | none => .error (.unexpectedChar c offset)
        | some (token, text) => do
            let rest ← scan (offset + byteLength text) (cs.drop (text.length - 1))
            return ⟨token, offset⟩ :: rest
  termination_by cs => cs.length

def tokenize (text : String) : Except ParseError (List Located) :=
  scan 0 text.toList

end Surface
end LinearTemporal

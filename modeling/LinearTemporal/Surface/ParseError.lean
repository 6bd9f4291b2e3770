import LinearTemporal.Surface.Token

/-!
# Errors of reading

Why a text is no formula.  Offsets count the bytes of the text in UTF-8.
-/

namespace LinearTemporal
namespace Surface

/-- How many levels of operators and parentheses may be open at once. -/
def nestingLimit : Nat := 256

inductive Expectation where
  | formula
  | term
  | closeParen
  | operatorOrEnd
  deriving DecidableEq, Repr

namespace Expectation

def description : Expectation → String
  | formula => "a formula"
  | term => "a term"
  | closeParen => "')'"
  | operatorOrEnd => "an operator or end of input"

end Expectation

inductive ParseError where
  | empty
  | unexpectedChar (char : Char) (offset : Nat)
  | integerOverflow (literal : String) (offset : Nat)
  | unexpectedToken (found : Token) (offset : Nat) (expected : Expectation)
  | unexpectedEnd (expected : Expectation)
  | tooDeep (offset : Nat)
  deriving DecidableEq, Repr

namespace ParseError

def message : ParseError → String
  | empty => "Empty formula"
  | unexpectedChar char offset =>
      "Unexpected character '" ++ char.toString ++ "' at offset " ++ toString offset
  | integerOverflow literal offset =>
      "Integer literal '" ++ literal ++ "' at offset " ++ toString offset ++
        " does not fit in 64 bits"
  | unexpectedToken found offset expected =>
      "Unexpected '" ++ found.render ++ "' at offset " ++ toString offset ++
        ", expected " ++ expected.description
  | unexpectedEnd expected =>
      "Unexpected end of input, expected " ++ expected.description
  | tooDeep offset =>
      "Formula nests deeper than " ++ toString nestingLimit ++ " levels (at offset " ++
        toString offset ++ ")"

def offset? : ParseError → Option Nat
  | empty => none
  | unexpectedChar _ offset => some offset
  | integerOverflow _ offset => some offset
  | unexpectedToken _ offset _ => some offset
  | unexpectedEnd _ => none
  | tooDeep offset => some offset

end ParseError

end Surface
end LinearTemporal

import LinearTemporal.Decimal.Binary64
import LinearTemporal.Toml.Basic

/-!
# Reading TOML

Documents of one entry a line: a header in brackets, or a key and a scalar, with
a comment after it or without.  Keys are bare, quoted or dotted; scalars are
strings on one line, integers, floating-point numbers and booleans.
-/

namespace LinearTemporal
namespace Toml

/-!
## Characters

Control characters stand neither in strings nor in comments, but for the tab.
-/

def isSpace (c : Char) : Bool :=
  c == ' ' || c == '\t'

def isControl (c : Char) : Bool :=
  (c.toNat < 32 && c != '\t') || c.toNat == 127

def isBareKeyChar (c : Char) : Bool :=
  c.isAlphanum || c == '_' || c == '-'

def hexValue? (c : Char) : Option Nat :=
  if c.isDigit then some (c.toNat - '0'.toNat)
  else if 'a' ≤ c ∧ c ≤ 'f' then some (c.toNat - 'a'.toNat + 10)
  else if 'A' ≤ c ∧ c ≤ 'F' then some (c.toNat - 'A'.toNat + 10)
  else none

def skipSpaces (cs : List Char) : List Char :=
  cs.dropWhile isSpace

/-!
## Strings

A string is read from behind its opening quote, and gives its text and what follows the
closing one.  Not every number is the code of a character.
-/

def scalarChar? (code : Nat) : Option Char :=
  if code.isValidChar then some (Char.ofNat code) else none

def hexCode? (digits : List Char) : Option Nat :=
  digits.foldlM (fun code c => (hexValue? c).map (fun digit => 16 * code + digit)) 0

def escaped? : Char → Option Char
  | 'b' => some (Char.ofNat 8)
  | 't' => some '\t'
  | 'n' => some '\n'
  | 'f' => some (Char.ofNat 12)
  | 'r' => some '\r'
  | '"' => some '"'
  | '\\' => some '\\'
  | _ => none

def basicString? : List Char → Option (List Char × List Char)
  | [] => none
  | '"' :: rest => some ([], rest)
  | '\\' :: 'u' :: a :: b :: c :: d :: rest => do
      let char ← scalarChar? (← hexCode? [a, b, c, d])
      let (text, rest) ← basicString? rest
      return (char :: text, rest)
  | '\\' :: 'U' :: a :: b :: c :: d :: e :: f :: g :: h :: rest => do
      let char ← scalarChar? (← hexCode? [a, b, c, d, e, f, g, h])
      let (text, rest) ← basicString? rest
      return (char :: text, rest)
  | '\\' :: c :: rest => do
      let char ← escaped? c
      let (text, rest) ← basicString? rest
      return (char :: text, rest)
  | c :: rest => do
      if isControl c || c == '\\' then
        none
      else
        let (text, rest) ← basicString? rest
        return (c :: text, rest)

def literalString? : List Char → Option (List Char × List Char)
  | [] => none
  | '\'' :: rest => some ([], rest)
  | c :: rest => do
      if isControl c then
        none
      else
        let (text, rest) ← literalString? rest
        return (c :: text, rest)

/-!
## Numbers

Digits may have single underscores between them.  Decimal digits start with a zero only
if they are nothing else, and other bases have a prefix and no sign.
-/

def groupedDigits? (isDigit : Char → Bool) : List Char → Option (List Char)
  | [] => none
  | [c] => if isDigit c then some [c] else none
  | c :: '_' :: rest =>
      if isDigit c then (groupedDigits? isDigit rest).map (c :: ·) else none
  | c :: rest =>
      if isDigit c then (groupedDigits? isDigit rest).map (c :: ·) else none

def decimalDigits? (cs : List Char) : Option (List Char) := do
  let digits ← groupedDigits? Char.isDigit cs
  if digits.head? = some '0' ∧ 1 < digits.length then none else some digits

def int64? (value : Int) : Option Int64 :=
  if Int64.minValue.toInt ≤ value ∧ value ≤ Int64.maxValue.toInt then
    some (Int64.ofInt value)
  else
    none

def splitSign : List Char → Bool × List Char
  | '+' :: rest => (false, rest)
  | '-' :: rest => (true, rest)
  | cs => (false, cs)

def digitsValue (base : Nat) (digits : List Char) : Nat :=
  digits.foldl (fun value c => base * value + (hexValue? c).getD 0) 0

def radixInteger? : List Char → Option Nat
  | '0' :: 'x' :: rest =>
      (groupedDigits? (fun c => (hexValue? c).isSome) rest).map (digitsValue 16)
  | '0' :: 'o' :: rest =>
      (groupedDigits? (fun c => '0' ≤ c && c ≤ '7') rest).map (digitsValue 8)
  | '0' :: 'b' :: rest =>
      (groupedDigits? (fun c => c == '0' || c == '1') rest).map (digitsValue 2)
  | _ => none

def integer? (cs : List Char) : Option Int64 :=
  match radixInteger? cs with
  | some value => int64? value
  | none => do
      let (negative, magnitude) := splitSign cs
      let value := digitsValue 10 (← decimalDigits? magnitude)
      int64? (if negative then -(value : Int) else value)

def exponent? (cs : List Char) : Option Int := do
  let (negative, magnitude) := splitSign cs
  let value := digitsValue 10 (← groupedDigits? Char.isDigit magnitude)
  return if negative then -(value : Int) else value

def isExponentMark (c : Char) : Bool :=
  c == 'e' || c == 'E'

/-- The digits of a decimal number without its sign, as a whole number and the
power of ten to multiply it by.  The number has a fraction, an exponent or both. -/
def decimal? (cs : List Char) : Option (Nat × Int) := do
  let mantissa := cs.takeWhile (fun c => !isExponentMark c)
  let whole := mantissa.takeWhile (· != '.')
  let hasFraction := whole.length < mantissa.length
  let hasExponent := mantissa.length < cs.length
  if !hasFraction && !hasExponent then
    none
  else
    let wholeDigits ← decimalDigits? whole
    let fractionDigits ←
      if hasFraction then groupedDigits? Char.isDigit (mantissa.drop (whole.length + 1))
      else some []
    let exponent ← if hasExponent then exponent? (cs.drop (mantissa.length + 1)) else some 0
    return (digitsValue 10 (wholeDigits ++ fractionDigits), exponent - fractionDigits.length)

/-- Whether this is a floating-point number.  It must not be too great for one;
how small it may be has no limit. -/
def isFloat (cs : List Char) : Bool :=
  let (negative, magnitude) := splitSign cs
  if magnitude == "inf".toList || magnitude == "nan".toList then
    true
  else
    match decimal? magnitude with
    | some (digits, exponent) => negative || !Decimal.overflows digits exponent
    | none => false

/-!
## Entries

The readers give what they read together with what follows it; a line is to have nothing
after that but blanks and a comment.  The parts of a key are limited in number.
-/

def scalar? (cs : List Char) : Option (Scalar × List Char) :=
  match cs with
  | '"' :: rest => (basicString? rest).map (fun found => (.string (String.ofList found.1), found.2))
  | '\'' :: rest =>
      (literalString? rest).map (fun found => (.string (String.ofList found.1), found.2))
  | cs =>
      let word := cs.takeWhile (fun c => !isSpace c && c != '#')
      let rest := cs.drop word.length
      if word == "true".toList then some (.boolean true, rest)
      else if word == "false".toList then some (.boolean false, rest)
      else
        match integer? word with
        | some value => some (.integer value, rest)
        | none => if isFloat word then some (.float, rest) else none

def keyPart? (cs : List Char) : Option (String × List Char) :=
  match cs with
  | '"' :: rest => (basicString? rest).map (fun found => (String.ofList found.1, found.2))
  | '\'' :: rest => (literalString? rest).map (fun found => (String.ofList found.1, found.2))
  | cs =>
      let word := cs.takeWhile isBareKeyChar
      if word.isEmpty then none else some (String.ofList word, cs.drop word.length)

def keyWithin? : Nat → List Char → Option (Path × List Char)
  | 0, _ => none
  | parts + 1, cs => do
      let (part, rest) ← keyPart? (skipSpaces cs)
      match skipSpaces rest with
      | '.' :: rest => do
          let (more, rest) ← keyWithin? parts rest
          return (part :: more, rest)
      | rest => return ([part], rest)

def keyLimit : Nat :=
  79

def key? (cs : List Char) : Option (Path × List Char) :=
  keyWithin? keyLimit cs

/-- Whether nothing but blanks and a comment is left of a line. -/
def isLineEnd (cs : List Char) : Bool :=
  match skipSpaces cs with
  | [] => true
  | '#' :: comment => comment.all (fun c => !isControl c)
  | _ => false

inductive Entry where
  | blank
  | header (path : Path)
  | assignment (key : Path) (value : Scalar)
  deriving Repr

def entry? (line : List Char) : Option Entry :=
  if isLineEnd line then
    some .blank
  else
    match skipSpaces line with
    | '[' :: rest => do
        let (path, rest) ← key? rest
        match rest with
        | ']' :: rest => if isLineEnd rest then some (.header path) else none
        | _ => none
    | cs => do
        let (key, rest) ← key? cs
        match rest with
        | '=' :: rest => do
            let (value, rest) ← scalar? (skipSpaces rest)
            if isLineEnd rest then some (.assignment key value) else none
        | _ => none

/-!
## Documents

The lines are gone through from the first to the last, and each entry belongs to the
table whose header came last.  A carriage return is part of the line feed after it, and
a byte order mark at the start of the text is none of it.
-/

def splitLines : List Char → List (List Char)
  | [] => [[]]
  | '\n' :: rest => [] :: splitLines rest
  | '\r' :: '\n' :: rest => [] :: splitLines rest
  | c :: rest =>
      match splitLines rest with
      | [] => [[c]]
      | line :: lines => (c :: line) :: lines

def addLines? (d : Document) (table : Path) : List (List Char) → Option Document
  | [] => some d
  | line :: lines => do
      match ← entry? line with
      | .blank => addLines? d table lines
      | .header path => addLines? (← d.openTable? path) path lines
      | .assignment key value => addLines? (← d.assign? table key value) table lines

def dropMark : List Char → List Char
  | '\ufeff' :: rest => rest
  | cs => cs

/-- Read a document; there is none if the text breaks a rule anywhere. -/
def parse? (text : String) : Option Document :=
  addLines? Document.empty [] (splitLines (dropMark text.toList))

end Toml
end LinearTemporal

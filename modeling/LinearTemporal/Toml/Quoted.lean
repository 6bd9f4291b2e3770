/-!
# Quoted strings in TOML

A string is written in the plainest quotes that need no escapes: double quotes,
then single quotes, then either of them tripled.  Where none will do, what
cannot stand for itself is escaped.
-/

namespace LinearTemporal
namespace Toml

def longestRun (c : Char) (cs : List Char) : Nat :=
  (cs.foldl (fun (run : Nat × Nat) d =>
    if d = c then (run.1 + 1, max run.2 (run.1 + 1)) else (0, run.2)) (0, 0)).2

def needsCode (c : Char) : Bool :=
  (c.toNat < 32 && c != '\t' && c != '\n') || c.toNat == 127

def hexDigitUpper (n : Nat) : Char :=
  ((Nat.toDigits 16 n).getD 0 '0').toUpper

def escapeCode (c : Char) : List Char :=
  if c.toNat = 8 then ['\\', 'b']
  else if c.toNat = 12 then ['\\', 'f']
  else if c = '\r' then ['\\', 'r']
  else ['\\', 'u', '0', '0', hexDigitUpper (c.toNat / 16), hexDigitUpper (c.toNat % 16)]

/-- Escape a text between double quotes.  In triple quotes line feeds stand for
themselves, and so do up to two double quotes in a row; `run` counts those
before the text. -/
def escapeText (tripled : Bool) (run : Nat) : List Char → List Char
  | [] => []
  | c :: cs =>
      if c = '"' then
        if tripled ∧ run < 2 then '"' :: escapeText tripled (run + 1) cs
        else '\\' :: '"' :: escapeText tripled 0 cs
      else
        let written :=
          if c = '\\' then ['\\', '\\']
          else if c = '\t' then ['\\', 't']
          else if c = '\n' then (if tripled then ['\n'] else ['\\', 'n'])
          else if needsCode c then escapeCode c
          else [c]
        written ++ escapeText tripled 0 cs

def quote (text : String) : String :=
  let cs := text.toList
  let hasCode := cs.any needsCode
  let hasBackslash := cs.contains '\\'
  let hasLineFeed := cs.contains '\n'
  let lineFeed := if hasLineFeed then "\n" else ""
  let basic := "\"" ++ String.ofList (escapeText false 0 cs) ++ "\""
  let tripleBasic := "\"\"\"" ++ lineFeed ++ String.ofList (escapeText true 0 cs) ++ "\"\"\""
  if !hasCode && !hasBackslash && !cs.contains '"' && !hasLineFeed then basic
  else if !hasCode && !cs.contains '\'' && !hasLineFeed then "'" ++ text ++ "'"
  else if !hasCode && !hasBackslash && longestRun '"' cs ≤ 2 then tripleBasic
  else if !hasCode && longestRun '\'' cs ≤ 2 then "'''" ++ lineFeed ++ text ++ "'''"
  else if hasLineFeed then tripleBasic
  else basic

end Toml
end LinearTemporal

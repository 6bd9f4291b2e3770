import LinearTemporal.Text.Blank
import LinearTemporal.Text.Letter

/-!
# Log filters

A log filter is a list of directives with commas between them.  A directive
names a level, a target, a span with fields, or a target and a span, and it may
end with the level for what it names: `info`, `net=warn`, `net[call{id=7}]=debug`.
Here filters are only checked.
-/

namespace LinearTemporal
namespace CommandLine
namespace LogFilter

inductive Fault where
  /-- Its parts do not fit together. -/
  | form
  /-- Its level is none. -/
  | level
  deriving DecidableEq, Repr

def Fault.message : Fault → String
  | form => "invalid filter directive"
  | level =>
      let cause :=
        "error parsing level filter: expected one of \"off\", \"error\", \"warn\", \"info\", " ++
          "\"debug\", \"trace\", or a number 0-5"
      cause ++ ": " ++ cause

/-!
## Levels

Names of levels are read in any case; a number up to five, with a plus sign or without,
is a level too.  A level that is left out stands for all of them.  A directive that
gives one must have no blanks around it.
-/

def levelNames : List String :=
  ["off", "error", "warn", "info", "debug", "trace"]

def lowerCase (cs : List Char) : String :=
  String.ofList (cs.map Char.toLower)

def isLevelNumber (cs : List Char) : Bool :=
  let digits := if cs.head? = some '+' then cs.tail else cs
  !digits.isEmpty && digits.all Char.isDigit &&
    digits.foldl (fun value c => 10 * value + (c.toNat - '0'.toNat)) 0 ≤ 5

def isLevel (cs : List Char) : Bool :=
  cs.isEmpty || isLevelNumber cs || levelNames.contains (lowerCase cs)

def checkLevel (padded : Bool) (cs : List Char) : Except Fault Unit :=
  if isLevel cs && !padded then .ok () else .error .level

/-!
## Directives

Each function checks the rest of a directive; `padded` says whether there are
blanks around the directive.
-/

def checkAfterSpan (padded : Bool) : List Char → Except Fault Unit
  | [] => .ok ()
  | '=' :: level => checkLevel padded level
  | _ => .error .form

def checkFields (padded : Bool) (cs : List Char) : Except Fault Unit :=
  let fields := cs.takeWhile (· != '\x7d')
  match cs.drop fields.length with
  | '\x7d' :: ']' :: rest =>
      if fields.isEmpty then .error .form else checkAfterSpan padded rest
  | _ => .error .form

def checkSpan (padded : Bool) (cs : List Char) : Except Fault Unit :=
  let name := cs.takeWhile (fun c => c != ']' && c != '\x7b')
  match cs.drop name.length with
  | ']' :: rest => checkAfterSpan padded rest
  | '\x7b' :: rest => checkFields padded rest
  | _ => .error .form

def startsTarget (c : Char) : Bool :=
  Text.isLetterOrNumber c || c == '-' || c == ':' || c == '_'

def checkFromStart (padded : Bool) : List Char → Except Fault Unit
  | [] => .error .form
  | '[' :: rest => checkSpan padded rest
  | c :: rest =>
      if startsTarget c then
        match rest.dropWhile (fun d => d != '=' && d != '[') with
        | '=' :: level => checkLevel padded level
        | '[' :: rest => checkSpan padded rest
        | _ => .ok ()
      else
        .error .form

def checkDirective (cs : List Char) : Except Fault Unit :=
  let trimmed := Text.trimChars cs
  checkFromStart (trimmed.length < cs.length) trimmed

/-!
## Filters

Directives of no character are passed over.
-/

def splitCommas : List Char → List (List Char)
  | [] => [[]]
  | ',' :: rest => [] :: splitCommas rest
  | c :: rest =>
      match splitCommas rest with
      | [] => [[c]]
      | piece :: pieces => (c :: piece) :: pieces

def check (text : String) : Except Fault Unit :=
  ((splitCommas text.toList).filter (fun piece => !piece.isEmpty)).forM checkDirective

def isValid (text : String) : Bool :=
  match check text with
  | .ok () => true
  | .error _ => false

end LogFilter
end CommandLine
end LinearTemporal

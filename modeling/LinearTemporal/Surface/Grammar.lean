import LinearTemporal.Surface.Cursor
import LinearTemporal.Surface.Lexer
import LinearTemporal.Surface.Tree

/-!
# From tokens to formulas

Formulas are read by level, from the loosest binding to the tightest: chains of
equivalences, which associate to the left; implications, which associate to the
right; chains of disjunctions; chains of conjunctions; binary temporal
operators, which associate to the right; unary operators; and what needs no
operator.  Terms have chains of sums and differences, chains of products, and
factors.

Whatever nests opens a level, and the number of open levels is limited.  So the
reader of each level is defined from the readers one level deeper, down to where
no level is left to open.

An opening parenthesis may start a term or a formula.  A term is tried first; if
no term can be read, or no comparison follows it, the same tokens are read as a
formula.
-/

namespace LinearTemporal
namespace Surface

def decimal? (cs : List Char) : Option Nat :=
  if cs ≠ [] ∧ cs.all Char.isDigit then some (Nat.ofDigitChars 10 cs 0) else none

/-- The integer that a literal denotes: digits, after a sign if there is one. -/
def integer? : List Char → Option Int
  | '-' :: cs => (decimal? cs).map (fun n => -Int.ofNat n)
  | '+' :: cs => (decimal? cs).map Int.ofNat
  | cs => (decimal? cs).map Int.ofNat

def readInteger (negative : Bool) (digits : String) (offset : Nat) : Except ParseError Int64 :=
  let literal := (if negative then "-" else "") ++ digits
  match integer? literal.toList with
  | none => .error (.integerOverflow literal offset)
  | some value =>
      if Int64.minValue.toInt ≤ value ∧ value ≤ Int64.maxValue.toInt then
        .ok (Int64.ofInt value)
      else
        .error (.integerOverflow literal offset)

/-- Whether an error stands even where a term is only tried. -/
def ParseError.isFinal : ParseError → Bool
  | .integerOverflow .. => true
  | .tooDeep _ => true
  | _ => false

/-!
## The tokens of each level

A level asks for the next token by what it makes of it.
-/

namespace Token

def comparison? : Token → Option Comparison
  | comparison op => some op
  | _ => none

def additive? : Token → Option Arithmetic
  | arithmetic .add => some .add
  | arithmetic .sub => some .sub
  | _ => none

def multiplicative? : Token → Option Arithmetic
  | arithmetic .mul => some .mul
  | _ => none

def temporal? : Token → Option TemporalOperator
  | temporal op => some op
  | _ => none

def unary? : Token → Option (Tree → Tree)
  | not => some Tree.not
  | modality op => some (Tree.modal op)
  | _ => none

def only (expected token : Token) : Option Unit :=
  if token = expected then some () else none

end Token

namespace Parser

/-!
## Terms

A minus directly before digits belongs to the number.  Chains are joined from the left.
-/

def factor (deeperTerm deeperFactor : Parser Term) : Parser Term := fun c =>
  match c.rest with
  | ⟨.name name, _⟩ :: rest => .ok (.var name, { c with rest := rest })
  | ⟨.digits digits, offset⟩ :: rest => do
      let value ← readInteger false digits offset
      return (.int value, { c with rest := rest })
  | ⟨.arithmetic .sub, offset⟩ :: ⟨.digits digits, _⟩ :: rest => do
      let value ← readInteger true digits offset
      return (.int value, { c with rest := rest })
  | ⟨.arithmetic .sub, _⟩ :: rest => do
      let (body, c) ← nested deeperFactor { c with rest := rest }
      return (.neg body, c)
  | ⟨.openParen, _⟩ :: rest => do
      let (body, c) ← nested deeperTerm { c with rest := rest }
      let c ← c.expect .closeParen .closeParen
      return (body, c)
  | _ => .error (c.unexpected .term)

def foldArithmetic (first : Term) (more : List (Arithmetic × Term)) : Term :=
  more.foldl (fun left entry => .binary entry.1 left entry.2) first

def product (factor : Parser Term) : Parser Term := fun c => do
  let ((first, more), c) ← chain Token.multiplicative? factor c
  return (foldArithmetic first more, c)

def sum (product : Parser Term) : Parser Term := fun c => do
  let ((first, more), c) ← chain Token.additive? product c
  return (foldArithmetic first more, c)

/-!
## Formulas

The readers of one level, given those for what they nest.  Only the comparison may come
to nothing, at the place where it started.
-/

/-- A comparison of two terms; `none`, at the same place, if the tokens do not
start with a term and a comparison operator. -/
def atom? (term : Parser Term) : Parser (Option Tree) := fun c =>
  match term c with
  | .error e => if e.isFinal then .error e else .ok (none, c)
  | .ok (left, afterLeft) =>
      match afterLeft.accept? Token.comparison? with
      | none => .ok (none, c)
      | some (op, afterOp) => do
          let (right, afterRight) ← term afterOp
          return (some (.atom left op right), afterRight)

def primary (term : Parser Term) (deeperFormula : Parser Tree) : Parser Tree := fun c => do
  match ← atom? term c with
  | (some tree, c) => return (tree, c)
  | (none, c) =>
      match c.rest with
      | ⟨.constant value, _⟩ :: rest => return (.constant value, { c with rest := rest })
      | ⟨.name name, _⟩ :: rest => return (.proposition name, { c with rest := rest })
      | ⟨.openParen, _⟩ :: rest =>
          let (tree, c) ← nested deeperFormula { c with rest := rest }
          let c ← c.expect .closeParen .closeParen
          return (tree, c)
      | _ => throw (c.unexpected .formula)

def unary (primary deeperUnary : Parser Tree) : Parser Tree := fun c =>
  match c.accept? Token.unary? with
  | none => primary c
  | some (build, c) => do
      let (body, c) ← nested deeperUnary c
      return (build body, c)

def binary (unary deeperBinary : Parser Tree) : Parser Tree := fun c => do
  let (left, c) ← unary c
  match c.accept? Token.temporal? with
  | none => return (left, c)
  | some (op, c) =>
      let (right, c) ← nested deeperBinary c
      return (.temporal op left right, c)

def connected (k : Connective) (operand : Parser Tree) : Parser Tree := fun c => do
  let ((first, more), c) ← chain (Token.only (.connective k)) operand c
  match more with
  | [] => return (first, c)
  | _ => return (.chain k (first :: more.map Prod.snd), c)

def implicational (disjunction deeperImplication : Parser Tree) : Parser Tree := fun c => do
  let (premise, c) ← disjunction c
  match c.accept? (Token.only .implies) with
  | none => return (premise, c)
  | some (_, c) =>
      let (conclusion, c) ← nested deeperImplication c
      return (.implies premise conclusion, c)

def equivalential (implication : Parser Tree) : Parser Tree := fun c => do
  let ((first, more), c) ← chain (Token.only .iff) implication c
  return (more.foldl (fun left entry => .iff left entry.2) first, c)

end Parser

/-!
## All levels together

The readers at one level are made from those one level deeper.  Where no level may be
opened any more none is needed, since opening the last one fails before it is read.
-/

/-- The readers that nested parts need. -/
structure Readers where
  formula : Parser Tree
  implication : Parser Tree
  binary : Parser Tree
  unary : Parser Tree
  term : Parser Term
  factor : Parser Term

namespace Readers

/-- Readers for where no level may be opened any more.  No cursor gets there,
since opening the last level fails first. -/
def none : Readers :=
  let fail {α : Type} : Parser α := fun c => .error (.tooDeep c.offset)
  ⟨fail, fail, fail, fail, fail, fail⟩

def above (deeper : Readers) : Readers :=
  let factor := Parser.factor deeper.term deeper.factor
  let term := Parser.sum (Parser.product factor)
  let unary := Parser.unary (Parser.primary term deeper.formula) deeper.unary
  let binary := Parser.binary unary deeper.binary
  let conjunction := Parser.connected .and binary
  let disjunction := Parser.connected .or conjunction
  let implication := Parser.implicational disjunction deeper.implication
  { formula := Parser.equivalential implication
    implication := implication
    binary := binary
    unary := unary
    term := term
    factor := factor }

def levels : Nat → Readers
  | 0 => none
  | n + 1 => above (levels n)

end Readers

def readTree (tokens : List Located) : Except ParseError Tree := do
  if tokens = [] then
    throw .empty
  let (tree, c) ← (Readers.levels (nestingLimit + 1)).formula (Cursor.start tokens)
  if c.rest = [] then
    return tree
  throw (c.unexpected .operatorOrEnd)

def readFormula (tokens : List Located) : Except ParseError Formula := do
  let tree ← readTree tokens
  return tree.toFormula

end Surface

namespace Formula

/-- Read a formula. -/
def parse (text : String) : Except Surface.ParseError Formula := do
  let tokens ← Surface.tokenize text
  Surface.readFormula tokens

end Formula

end LinearTemporal

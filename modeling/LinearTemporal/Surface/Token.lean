import LinearTemporal.Formula.Basic

/-!
# Tokens

The words and symbols of the written language of formulas.
-/

namespace LinearTemporal
namespace Surface

inductive Modality where
  | next
  | always
  | eventually
  deriving DecidableEq, Repr

namespace Modality

def symbol : Modality → String
  | next => "X"
  | always => "G"
  | eventually => "F"

end Modality

inductive TemporalOperator where
  | untl
  | release
  | weakUntil
  | strongRelease
  deriving DecidableEq, Repr

namespace TemporalOperator

def symbol : TemporalOperator → String
  | untl => "U"
  | release => "R"
  | weakUntil => "W"
  | strongRelease => "M"

end TemporalOperator

inductive Token where
  | constant (value : Bool)
  | name (text : String)
  | digits (text : String)
  | openParen
  | closeParen
  | not
  | connective (k : Connective)
  | implies
  | iff
  | modality (op : Modality)
  | temporal (op : TemporalOperator)
  | arithmetic (op : Arithmetic)
  | comparison (op : Comparison)
  deriving DecidableEq, Repr

namespace Token

/-!
A token is written in one way in messages, though a text may write it in several.  Words
that stand for tokens are no names.
-/

def render : Token → String
  | constant true => "true"
  | constant false => "false"
  | name text => text
  | digits text => text
  | openParen => "("
  | closeParen => ")"
  | not => "!"
  | connective k => k.symbol
  | implies => "->"
  | iff => "<->"
  | modality op => op.symbol
  | temporal op => op.symbol
  | arithmetic op => op.symbol
  | comparison op => op.symbol

/-- Symbols with the tokens they stand for.  No symbol comes after one that it
extends, so the first that matches is the longest. -/
def symbols : List (String × Token) :=
  [("<->", iff), ("<=>", iff), ("&&", connective .and), ("||", connective .or),
    ("->", implies), ("=>", implies), ("<=", comparison .leq), (">=", comparison .geq),
    ("&", connective .and), ("|", connective .or), ("!", not), ("~", not),
    ("(", openParen), (")", closeParen), ("+", arithmetic .add), ("-", arithmetic .sub),
    ("*", arithmetic .mul), ("<", comparison .lt), (">", comparison .gt)]

def keywords : List (String × Token) :=
  [("true", constant true), ("TRUE", constant true), ("tt", constant true),
    ("false", constant false), ("FALSE", constant false), ("ff", constant false),
    ("X", modality .next), ("G", modality .always), ("F", modality .eventually),
    ("U", temporal .untl), ("R", temporal .release), ("W", temporal .weakUntil),
    ("M", temporal .strongRelease)]

def ofWord (word : String) : Token :=
  (keywords.lookup word).getD (name word)

end Token

/-- A token and the byte offset at which it starts. -/
structure Located where
  token : Token
  offset : Nat
  deriving DecidableEq, Repr

end Surface
end LinearTemporal

import LinearTemporal.Surface.ParseError

/-!
# Cursors

A cursor is a place in a list of tokens together with the number of levels that
are open there.  This module holds the steps that a parser is made of: looking
at the next token, opening and closing a level, and reading a chain of operands
with separators between them.
-/

namespace LinearTemporal
namespace Surface

structure Cursor where
  rest : List Located
  depth : Nat
  deriving DecidableEq, Repr

/-- A reader of an `α` at a cursor, which also says where it ends. -/
abbrev Parser (α : Type) := Cursor → Except ParseError (α × Cursor)

namespace Cursor

def start (tokens : List Located) : Cursor :=
  ⟨tokens, 0⟩

def peek? (c : Cursor) : Option Token :=
  c.rest.head?.map Located.token

/-- The offset of the next token, or zero at the end. -/
def offset (c : Cursor) : Nat :=
  (c.rest.head?.map Located.offset).getD 0

def advance (c : Cursor) : Cursor :=
  { c with rest := c.rest.tail }

def unexpected (c : Cursor) (expected : Expectation) : ParseError :=
  match c.rest with
  | [] => .unexpectedEnd expected
  | located :: _ => .unexpectedToken located.token located.offset expected

def accept? {β : Type} (c : Cursor) (select : Token → Option β) : Option (β × Cursor) :=
  match c.peek?.bind select with
  | some x => some (x, c.advance)
  | none => none

def expect (c : Cursor) (token : Token) (expected : Expectation) : Except ParseError Cursor :=
  if c.peek? = some token then .ok c.advance else .error (c.unexpected expected)

def enter (c : Cursor) : Except ParseError Cursor :=
  if c.depth < nestingLimit then .ok { c with depth := c.depth + 1 }
  else .error (.tooDeep c.offset)

def leave (c : Cursor) : Cursor :=
  { c with depth := c.depth - 1 }

end Cursor

namespace Parser

/-- Read one level deeper. -/
def nested {α : Type} (parser : Parser α) : Parser α := fun c => do
  let c ← c.enter
  let (x, c) ← parser c
  return (x, c.leave)

/-!
Every separator takes a token, so the length of what is left bounds the rounds of a
chain.
-/

def tailWithin {α β : Type} (separator : Token → Option β) (operand : Parser α) :
    Nat → Parser (List (β × α))
  | 0, c => .ok ([], c)
  | rounds + 1, c =>
      match c.accept? separator with
      | none => .ok ([], c)
      | some (mark, c) => do
          let (x, c) ← operand c
          let (more, c) ← tailWithin separator operand rounds c
          return ((mark, x) :: more, c)

/-- Read operands with separators between them.  Every separator is a token, so
there are at most as many as tokens. -/
def chain {α β : Type} (separator : Token → Option β) (operand : Parser α) :
    Parser (α × List (β × α)) := fun c => do
  let (first, c) ← operand c
  let (more, c) ← tailWithin separator operand c.rest.length c
  return ((first, more), c)

end Parser

end Surface
end LinearTemporal

import LinearTemporal.Surface.Grammar

/-!
# Reading with registers

The readers of the grammar hand cursors on, so a try that fails leaves nothing behind.  Here is
the same parser with its place in registers that it overwrites as it goes: what was done before
an error stays done when the error is caught.  A level is opened before the limit is looked at, and
an error leaves open what was open where it was raised.  Only the try of a comparison catches
errors, and it puts the registers back.

A run is told as the list of what it did to the registers, so that all states in between can be
asked about, and not only the last one.
-/

namespace LinearTemporal
namespace Surface

/-!
The methods of the parser are named after what they read.  An action is what a method
does to the registers; the end of a method is an action too, which notes how the
registers were when it was called.  To give up is to end at a bound that is there for
the sake of the recursion only.
-/

def Token.digits? : Token → Option String
  | digits text => some text
  | _ => none

structure Registers where
  position : Nat
  depth : Nat
  deriving DecidableEq, Repr

inductive Method where
  | formula
  | implication
  | junction (k : Connective)
  | binary
  | unary
  | primary
  | comparison
  | term
  | product
  | factor
  deriving DecidableEq, Repr

inductive Ending where
  | value
  | nothing
  | failure
  deriving DecidableEq, Repr

def Ending.ofTry {α : Type} : Option α → Ending
  | some _ => value
  | none => nothing

inductive Action where
  | take
  | enter
  | leave
  | restore (saved : Registers)
  | finish (method : Method) (entry : Registers) (ending : Ending)
  | giveUp
  deriving DecidableEq, Repr

def Action.apply (s : Registers) : Action → Registers
  | take => { s with position := s.position + 1 }
  | enter => { s with depth := s.depth + 1 }
  | leave => { s with depth := s.depth - 1 }
  | restore saved => saved
  | finish .. => s
  | giveUp => s

namespace Registers

def start : Registers :=
  ⟨0, 0⟩

def after (s : Registers) (actions : List Action) : Registers :=
  actions.foldl Action.apply s

end Registers

/-- What a routine ends with, and what it did until then. -/
structure Run (α : Type) where
  result : Except ParseError α
  actions : List Action

structure Routine (α : Type) where
  on : List Located → Registers → Run α

namespace Routine

/-- After an error nothing else is done, and what was done stays done. -/
def bind {α β : Type} (routine : Routine α) (next : α → Routine β) : Routine β where
  on tokens s :=
    let first := routine.on tokens s
    match first.result with
    | .error e => ⟨.error e, first.actions⟩
    | .ok x =>
        let second := (next x).on tokens (s.after first.actions)
        ⟨second.result, first.actions ++ second.actions⟩

instance : Monad Routine where
  pure x := ⟨fun _ _ => ⟨.ok x, []⟩⟩
  bind := bind

/-!
## Steps

The steps act on the registers that they find.  After an error nothing else is done.
-/

def act (action : Action) : Routine Unit where
  on _ _ := ⟨.ok (), [action]⟩

def fail {α : Type} (e : ParseError) : Routine α where
  on _ _ := ⟨.error e, []⟩

def giveUp {α : Type} : Routine α where
  on _ _ := ⟨.error .empty, [.giveUp]⟩

def tokens : Routine (List Located) where
  on tokens _ := ⟨.ok tokens, []⟩

def remaining : Routine Nat where
  on tokens s := ⟨.ok (tokens.length - s.position), []⟩

def registers : Routine Registers where
  on _ s := ⟨.ok s, []⟩

def upcoming : Routine (Option Located) where
  on tokens s := ⟨.ok tokens[s.position]?, []⟩

def lift {α : Type} (result : Except ParseError α) : Routine α where
  on _ _ := ⟨result, []⟩

/-- Catch an error, with the registers as they are where it is caught. -/
def attempt {α : Type} (routine : Routine α) : Routine (Except ParseError α) where
  on tokens s :=
    let run := routine.on tokens s
    ⟨.ok run.result, run.actions⟩

def method {α : Type} (name : Method) (routine : Routine α) (ending : α → Ending) :
    Routine α where
  on tokens s :=
    let run := routine.on tokens s
    let ended := match run.result with
      | .ok x => ending x
      | .error _ => .failure
    ⟨run.result, run.actions ++ [.finish name s ended]⟩

def yields {α : Type} (name : Method) (routine : Routine α) : Routine α :=
  method name routine (fun _ => .value)

def eat {β : Type} (select : Token → Option β) : Routine (Option β) := do
  let next ← upcoming
  match next.bind (fun located => select located.token) with
  | none => return none
  | some x => do
      act .take
      return some x

def refuse {α : Type} (expected : Expectation) : Routine α := do
  match ← upcoming with
  | none => fail (.unexpectedEnd expected)
  | some located => fail (.unexpectedToken located.token located.offset expected)

def expect (token : Token) (expected : Expectation) : Routine Unit := do
  match ← eat (Token.only token) with
  | some () => return ()
  | none => refuse expected

/-- Open a level; the limit is looked at afterwards. -/
def enter : Routine Unit := do
  act .enter
  let s ← registers
  let next ← upcoming
  if nestingLimit < s.depth then
    fail (.tooDeep ((next.map Located.offset).getD 0))
  else
    return ()

def leave : Routine Unit :=
  act .leave

def nested {α : Type} (routine : Routine α) : Routine α := do
  enter
  let x ← routine
  leave
  return x

def tailWithin {α β : Type} (separator : Token → Option β) (operand : Routine α) :
    Nat → Routine (List (β × α))
  | 0 => do
      match ← eat separator with
      | none => return []
      | some _ => giveUp
  | rounds + 1 => do
      match ← eat separator with
      | none => return []
      | some mark => do
          let x ← operand
          let more ← tailWithin separator operand rounds
          return (mark, x) :: more

def chain {α β : Type} (separator : Token → Option β) (operand : Routine α) :
    Routine (α × List (β × α)) := do
  let first ← operand
  let more ← tailWithin separator operand (← remaining)
  return (first, more)

/-!
## Terms

A factor takes its token first and looks at it afterwards.
-/

def factor (deeperTerm deeperFactor : Routine Term) : Routine Term := do
  match ← upcoming with
  | none => fail (.unexpectedEnd .term)
  | some ⟨token, offset⟩ => do
      act .take
      match token with
      | .name name => return .var name
      | .digits digits => do
          let value ← lift (readInteger false digits offset)
          return .int value
      | .arithmetic .sub => do
          match ← eat Token.digits? with
          | some digits => do
              let value ← lift (readInteger true digits offset)
              return .int value
          | none => do
              let body ← nested deeperFactor
              return .neg body
      | .openParen => do
          let body ← nested deeperTerm
          expect .closeParen .closeParen
          return body
      | token => fail (.unexpectedToken token offset .term)

def product (factor : Routine Term) : Routine Term := do
  let (first, more) ← chain Token.multiplicative? factor
  return Parser.foldArithmetic first more

def sum (product : Routine Term) : Routine Term := do
  let (first, more) ← chain Token.additive? product
  return Parser.foldArithmetic first more

/-!
## Formulas

One method for each level, given the methods for what it nests.
-/

/-- A comparison of two terms, or nothing; then the registers are put back,
whatever the try did to them. -/
def comparison (term : Routine Term) : Routine (Option Tree) := do
  let entry ← registers
  match ← attempt term with
  | .error e =>
      if e.isFinal then
        fail e
      else do
        act (.restore entry)
        return none
  | .ok left => do
      match ← eat Token.comparison? with
      | none => do
          act (.restore entry)
          return none
      | some op => do
          let right ← term
          return some (.atom left op right)

def primary (comparison : Routine (Option Tree)) (deeperFormula : Routine Tree) :
    Routine Tree := do
  match ← comparison with
  | some tree => return tree
  | none => do
      match ← upcoming with
      | some ⟨.constant value, _⟩ => do
          act .take
          return .constant value
      | some ⟨.name name, _⟩ => do
          act .take
          return .proposition name
      | some ⟨.openParen, _⟩ => do
          act .take
          let tree ← nested deeperFormula
          expect .closeParen .closeParen
          return tree
      | _ => refuse .formula

def unary (primary deeperUnary : Routine Tree) : Routine Tree := do
  match ← eat Token.unary? with
  | none => primary
  | some build => do
      let body ← nested deeperUnary
      return build body

def binary (unary deeperBinary : Routine Tree) : Routine Tree := do
  let left ← unary
  match ← eat Token.temporal? with
  | none => return left
  | some op => do
      let right ← nested deeperBinary
      return .temporal op left right

def connected (k : Connective) (operand : Routine Tree) : Routine Tree := do
  let (first, more) ← chain (Token.only (.connective k)) operand
  match more with
  | [] => return first
  | _ => return .chain k (first :: more.map Prod.snd)

def implicational (disjunction deeperImplication : Routine Tree) : Routine Tree := do
  let premise ← disjunction
  match ← eat (Token.only .implies) with
  | none => return premise
  | some _ => do
      let conclusion ← nested deeperImplication
      return .implies premise conclusion

def equivalential (implication : Routine Tree) : Routine Tree := do
  let (first, more) ← chain (Token.only .iff) implication
  return more.foldl (fun left entry => .iff left entry.2) first

def whole (formula : Routine Tree) : Routine Tree := do
  if (← tokens) = [] then
    fail .empty
  else do
    let tree ← formula
    match ← upcoming with
    | none => return tree
    | some located => fail (.unexpectedToken located.token located.offset .operatorOrEnd)

end Routine

/-!
## All levels together

The methods at one level call those one level deeper, and where no level is left none is
called.
-/

/-- The methods that nested parts call. -/
structure Routines where
  formula : Routine Tree
  implication : Routine Tree
  binary : Routine Tree
  unary : Routine Tree
  term : Routine Term
  factor : Routine Term

namespace Routines

open Routine

def none : Routines :=
  ⟨giveUp, giveUp, giveUp, giveUp, giveUp, giveUp⟩

def above (deeper : Routines) : Routines :=
  let factor := yields .factor (Routine.factor deeper.term deeper.factor)
  let term := yields .term (sum (yields .product (product factor)))
  let comparison := method .comparison (Routine.comparison term) Ending.ofTry
  let primary := yields .primary (Routine.primary comparison deeper.formula)
  let unary := yields .unary (Routine.unary primary deeper.unary)
  let binary := yields .binary (Routine.binary unary deeper.binary)
  let conjunction := yields (.junction .and) (connected .and binary)
  let disjunction := yields (.junction .or) (connected .or conjunction)
  let implication := yields .implication (implicational disjunction deeper.implication)
  { formula := yields .formula (equivalential implication)
    implication := implication
    binary := binary
    unary := unary
    term := term
    factor := factor }

/-- The methods where the given number of levels are left, the current one
included. -/
def levels : Nat → Routines
  | 0 => none
  | n + 1 => above (levels n)

def read (tokens : List Located) : Run Tree :=
  (whole (levels (nestingLimit + 1)).formula).on tokens Registers.start

end Routines

end Surface
end LinearTemporal

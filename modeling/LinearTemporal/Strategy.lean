import LinearTemporal.Rule.NextFloating
import LinearTemporal.Rule.Propositional
import LinearTemporal.Rule.Subsumption
import LinearTemporal.Text.Blank

/-!
# Strategies

A strategy is a choice of rule groups, tried in order.  Three strategies form a
chain, each with the rules of the one before and more; the fourth only moves
`next`.
-/

namespace LinearTemporal

inductive Strategy where
  | propositional
  | modal
  | pullNext
  | aggressive
  deriving DecidableEq, Repr

namespace Strategy

instance : Inhabited Strategy :=
  ⟨aggressive⟩

def all : List Strategy :=
  [propositional, modal, pullNext, aggressive]

def name : Strategy → String
  | propositional => "propositional"
  | modal => "modal"
  | pullNext => "pullup-x"
  | aggressive => "aggressively"

def description : Strategy → String
  | propositional => "Boolean constant folding and negation of leaves"
  | modal => "propositional rules plus temporal dualities and identities"
  | pullNext => "move every X operator as far towards the root as possible"
  | aggressive => "modal rules plus propositional and temporal subsumption"

/-- The rule groups in the order in which they are tried. -/
def groups : Strategy → List (List Rule)
  | propositional => [Rule.propositional]
  | modal => [Rule.propositional, Rule.modal]
  | pullNext => [Rule.nextFloating]
  | aggressive => [Rule.propositional, Rule.modal, Rule.subsumption]

def rules (s : Strategy) : List Rule :=
  s.groups.flatten

/-!
## Reading a name

Blanks around a name make no difference, nor does the case of its letters, nor an
underscore in place of a hyphen.
-/

structure UnknownName where
  name : String
  deriving DecidableEq, Repr

def UnknownName.message (e : UnknownName) : String :=
  "Unknown simplification strategy '" ++ e.name ++ "' (expected one of: " ++
    String.intercalate ", " (all.map Strategy.name) ++ ")"

def canonicalName (text : String) : String :=
  String.ofList ((Text.trimChars text.toList).map (fun c =>
    if c = '_' then '-' else c.toLower))

def ofName (text : String) : Except UnknownName Strategy :=
  match all.find? (fun s => s.name = canonicalName text) with
  | some s => .ok s
  | none => .error ⟨text⟩

theorem ofName_name (s : Strategy) : ofName s.name = .ok s := by
  cases s <;> rfl

end Strategy

end LinearTemporal

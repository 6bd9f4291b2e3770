import LinearTemporal.Formula.Junction
import LinearTemporal.Formula.Measure

/-!
# Formulas and their parts

Induction over the parts of a formula, the formulas that occur in it, replacing
all parts at once, and the relations that survive such a replacement.  A relation
that every operator respects needs to be checked operator by operator only once;
whatever is done part by part then stays within it.
-/

namespace LinearTemporal
namespace Formula

/-!
## Induction over the parts

Parts are smaller than the whole, so a property of all parts of a formula need only give
the property of the formula.  A node below the root has a node directly above it.
-/

theorem size_lt_of_mem_children {f g : Formula} (h : g ∈ f.children) : g.size < f.size := by
  cases f with
  | junction k operands =>
      have hle := size_le_sizeAll (show g ∈ operands from h)
      simp only [size]
      omega
  | const | literal | atom => cases h
  | not body | next body | always body | eventually body =>
      cases List.mem_singleton.mp h
      simp [size]
  | untl left right | release left right =>
      simp only [children, List.mem_cons, List.not_mem_nil, or_false] at h
      rcases h with rfl | rfl
      · simp only [size]
        omega
      · simp only [size]
        omega

/-- Induction over the tree: a property of all parts of a formula is to give the
property of the formula. -/
theorem induction_on_children {motive : Formula → Prop}
    (step : ∀ f, (∀ g ∈ f.children, motive g) → motive f) (f : Formula) : motive f := by
  induction hsize : f.size using Nat.strongRecOn generalizing f with
  | ind n ih =>
      apply step
      intro g hg
      exact ih g.size (hsize ▸ size_lt_of_mem_children hg) g rfl

/-- `g` is a node of the tree of `f`. -/
inductive OccursIn (g : Formula) : Formula → Prop where
  | root : OccursIn g g
  | part {f part} : part ∈ f.children → OccursIn g part → OccursIn g f

theorem OccursIn.eq_or_exists_parent {g f : Formula} (h : g.OccursIn f) :
    g = f ∨ ∃ parent : Formula, parent.OccursIn f ∧ g ∈ parent.children := by
  induction h with
  | root => exact Or.inl rfl
  | part hpart _ ih =>
      rcases ih with rfl | ⟨parent, hparent, hg⟩
      · exact Or.inr ⟨_, OccursIn.root, hpart⟩
      · exact Or.inr ⟨parent, OccursIn.part hpart hparent, hg⟩

/-!
## The operator at the root

What the tests of the root recognise.
-/

theorem eq_always_of_isAlways {f : Formula} (h : f.isAlways = true) :
    ∃ body, f = always body := by
  cases f with
  | always body => exact ⟨body, rfl⟩
  | _ => cases h

theorem eq_eventually_of_isEventually {f : Formula} (h : f.isEventually = true) :
    ∃ body, f = eventually body := by
  cases f with
  | eventually body => exact ⟨body, rfl⟩
  | _ => cases h

/-!
## Names of the parts

A formula that has parts has just the names of its parts, so names are looked up at the
leaves.
-/

def names (f : Formula) : List String :=
  f.propositionNames ++ f.variableNames

theorem propositionNamesAll_eq_flatMap (fs : List Formula) :
    propositionNamesAll fs = fs.flatMap propositionNames := by
  induction fs with
  | nil => rfl
  | cons f fs ih => rw [propositionNamesAll, ih, List.flatMap_cons]

theorem variableNamesAll_eq_flatMap (fs : List Formula) :
    variableNamesAll fs = fs.flatMap variableNames := by
  induction fs with
  | nil => rfl
  | cons f fs ih => rw [variableNamesAll, ih, List.flatMap_cons]

theorem propositionNames_eq_flatMap {f : Formula} (h : f.children ≠ []) :
    f.propositionNames = f.children.flatMap propositionNames := by
  cases f with
  | const | literal | atom => exact absurd rfl h
  | not | next | always | eventually | untl | release =>
      simp [propositionNames, children]
  | junction k fs => exact propositionNamesAll_eq_flatMap fs

theorem variableNames_eq_flatMap {f : Formula} (h : f.children ≠ []) :
    f.variableNames = f.children.flatMap variableNames := by
  cases f with
  | const | literal | atom => exact absurd rfl h
  | not | next | always | eventually | untl | release =>
      simp [variableNames, children]
  | junction k fs => exact variableNamesAll_eq_flatMap fs

theorem mem_propositions {f : Formula} {name : String} :
    name ∈ f.propositions.toList ↔ name ∈ f.propositionNames :=
  OrderedSet.mem_ofList

theorem mem_integerVariables {f : Formula} {name : String} :
    name ∈ f.integerVariables.toList ↔ name ∈ f.variableNames :=
  OrderedSet.mem_ofList

theorem mem_propositions_of_mem_children {f g : Formula} (hg : g ∈ f.children) {name : String}
    (hname : name ∈ g.propositions.toList) : name ∈ f.propositions.toList := by
  rw [mem_propositions] at hname ⊢
  rw [propositionNames_eq_flatMap (List.ne_nil_of_mem hg)]
  exact List.mem_flatMap.mpr ⟨g, hg, hname⟩

theorem mem_integerVariables_of_mem_children {f g : Formula} (hg : g ∈ f.children)
    {name : String} (hname : name ∈ g.integerVariables.toList) :
    name ∈ f.integerVariables.toList := by
  rw [mem_integerVariables] at hname ⊢
  rw [variableNames_eq_flatMap (List.ne_nil_of_mem hg)]
  exact List.mem_flatMap.mpr ⟨g, hg, hname⟩

theorem mem_names_iff {f : Formula} (h : f.children ≠ []) {name : String} :
    name ∈ f.names ↔ ∃ g ∈ f.children, name ∈ g.names := by
  unfold names
  rw [propositionNames_eq_flatMap h, variableNames_eq_flatMap h]
  simp only [List.mem_append, List.mem_flatMap, ← exists_or, ← and_or_left]

/-!
## Operators by the number of their parts

Most arguments about an operator only use how many parts it has.  They are given once
for all operators with one part and once for those with two, and a case distinction by
`Arity` has four cases in place of ten.
-/

inductive IsUnary : (Formula → Formula) → Prop where
  | not : IsUnary not
  | next : IsUnary next
  | always : IsUnary always
  | eventually : IsUnary eventually

inductive IsBinary : (Formula → Formula → Formula) → Prop where
  | untl : IsBinary untl
  | release : IsBinary release

inductive Arity : Formula → Prop where
  | leaf {f : Formula} : f.children = [] → Arity f
  | unary {op : Formula → Formula} : IsUnary op → ∀ body, Arity (op body)
  | binary {op : Formula → Formula → Formula} : IsBinary op → ∀ left right, Arity (op left right)
  | junction (k : Connective) (fs : List Formula) : Arity (junction k fs)

theorem arity (f : Formula) : f.Arity := by
  cases f with
  | const | literal | atom => exact Arity.leaf rfl
  | not body => exact Arity.unary IsUnary.not body
  | next body => exact Arity.unary IsUnary.next body
  | always body => exact Arity.unary IsUnary.always body
  | eventually body => exact Arity.unary IsUnary.eventually body
  | untl left right => exact Arity.binary IsBinary.untl left right
  | release left right => exact Arity.binary IsBinary.release left right
  | junction k fs => exact Arity.junction k fs

theorem IsUnary.children {op : Formula → Formula} (hop : IsUnary op) (body : Formula) :
    (op body).children = [body] := by
  cases hop <;> rfl

theorem IsBinary.children {op : Formula → Formula → Formula} (hop : IsBinary op)
    (left right : Formula) : (op left right).children = [left, right] := by
  cases hop <;> rfl

theorem IsUnary.withChildren {op : Formula → Formula} (hop : IsUnary op) (body body' : Formula) :
    (op body).withChildren [body'] = op body' := by
  by_cases heq : [body'] = (op body).children
  · have hbody : body' = body := by
      rw [hop.children] at heq
      exact List.singleton_inj.mp heq
    rw [hbody] at heq ⊢
    exact if_pos heq
  · refine (if_neg heq).trans ?_
    cases hop <;> rfl

theorem IsBinary.withChildren {op : Formula → Formula → Formula} (hop : IsBinary op)
    (left right left' right' : Formula) :
    (op left right).withChildren [left', right'] = op left' right' := by
  by_cases heq : [left', right'] = (op left right).children
  · have hparts : left' = left ∧ right' = right := by
      rw [hop.children] at heq
      simpa using heq
    rw [hparts.1, hparts.2] at heq ⊢
    exact if_pos heq
  · refine (if_neg heq).trans ?_
    cases hop <;> rfl

/-!
## Replacing parts

A function is applied to all parts at once.  Where it changes none of them the formula
stays as it is, and a junction that changes is joined anew.
-/

def mapChildren (change : Formula → Formula) (f : Formula) : Formula :=
  f.withChildren (f.children.map change)

section

variable (change : Formula → Formula)

theorem mapChildren_of_map_eq {f : Formula} (h : f.children.map change = f.children) :
    f.mapChildren change = f :=
  if_pos h

theorem mapChildren_of_children_eq_nil {f : Formula} (h : f.children = []) :
    f.mapChildren change = f := by
  apply mapChildren_of_map_eq
  rw [h]
  rfl

theorem IsUnary.mapChildren {op : Formula → Formula} (hop : IsUnary op) (body : Formula) :
    (op body).mapChildren change = op (change body) := by
  unfold Formula.mapChildren
  rw [hop.children, List.map_singleton, hop.withChildren]

theorem IsBinary.mapChildren {op : Formula → Formula → Formula} (hop : IsBinary op)
    (left right : Formula) :
    (op left right).mapChildren change = op (change left) (change right) := by
  unfold Formula.mapChildren
  rw [hop.children, List.map_cons, List.map_singleton, hop.withChildren]

theorem mapChildren_junction_of_ne {k : Connective} {fs : List Formula}
    (h : fs.map change ≠ fs) :
    (junction k fs).mapChildren change = join k (fs.map change) :=
  if_neg h

end

/-!
## Congruences

A congruence is respected by every operator, where junctions may be joined anew.  So it
is respected by the replacement of parts.
-/

/-- A relation that every operator respects, junctions up to joining them anew. -/
structure IsCongruence (R : Formula → Formula → Prop) : Prop where
  refl : ∀ f, R f f
  not : ∀ {f g}, R f g → R (not f) (not g)
  next : ∀ {f g}, R f g → R (next f) (next g)
  always : ∀ {f g}, R f g → R (always f) (always g)
  eventually : ∀ {f g}, R f g → R (eventually f) (eventually g)
  untl : ∀ {f f' g g'}, R f f' → R g g' → R (untl f g) (untl f' g')
  release : ∀ {f f' g g'}, R f f' → R g g' → R (release f g) (release f' g')
  junction : ∀ {k fs} (change : Formula → Formula), (∀ f ∈ fs, R f (change f)) →
    R (junction k fs) (join k (fs.map change))

namespace IsCongruence

variable {R : Formula → Formula → Prop} (hR : IsCongruence R)

include hR

theorem unary {op : Formula → Formula} (hop : IsUnary op) {f g : Formula} (h : R f g) :
    R (op f) (op g) := by
  cases hop with
  | not => exact hR.not h
  | next => exact hR.next h
  | always => exact hR.always h
  | eventually => exact hR.eventually h

theorem binary {op : Formula → Formula → Formula} (hop : IsBinary op) {f f' g g' : Formula}
    (h : R f f') (h' : R g g') : R (op f g) (op f' g') := by
  cases hop with
  | untl => exact hR.untl h h'
  | release => exact hR.release h h'

theorem mapChildren {change : Formula → Formula} {f : Formula}
    (h : ∀ g ∈ f.children, R g (change g)) : R f (f.mapChildren change) := by
  cases f.arity with
  | leaf hleaf =>
      rw [mapChildren_of_children_eq_nil change hleaf]
      exact hR.refl _
  | unary hop body =>
      rw [hop.mapChildren]
      rw [hop.children, List.forall_mem_singleton] at h
      exact hR.unary hop h
  | binary hop left right =>
      rw [hop.mapChildren]
      rw [hop.children, List.forall_mem_cons, List.forall_mem_singleton] at h
      exact hR.binary hop h.1 h.2
  | junction k fs =>
      by_cases hmap : fs.map change = fs
      · rw [mapChildren_of_map_eq change (f := Formula.junction k fs) hmap]
        exact hR.refl _
      · rw [mapChildren_junction_of_ne change hmap]
        exact hR.junction change h

end IsCongruence

end Formula
end LinearTemporal

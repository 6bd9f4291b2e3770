import LinearTemporal.Proofs.Extents
import LinearTemporal.Proofs.NegationNormal
import LinearTemporal.Proofs.RoundTrip

/-!
# Reading a simplified formula back

The negation of a proposition has the same text as the negated literal, so what is read
from the text of a formula has literals in place of such negations.  Operands of a junction
may then be equal, or stand in another order, and the text of what was read differs from
the text that it was read from.

The propositional laws leave no negation of a proposition.  The laws that move `next` can:
they turn `!X p` into `X` of a negation of `p`.
-/

namespace LinearTemporal
namespace Formula

open Surface

/-- What is read from the text of a formula. -/
def readBack (f : Formula) : Formula :=
  f.toTree.toFormula

/-- The operands of the junctions are still apart and in order when they are read back. -/
def KeepsOrder (f : Formula) : Prop :=
  ∀ k fs, OccursIn (junction k fs) f → Ascending.IsAscending (fs.map readBack)

theorem KeepsOrder.children {f g : Formula} (h : f.KeepsOrder) (hg : g ∈ f.children) :
    g.KeepsOrder :=
  fun k fs hoccurs => h k fs (OccursIn.part hg hoccurs)

theorem readBack_junction (k : Connective) (fs : List Formula) :
    (junction k fs).readBack = join k (fs.map readBack) := by
  unfold readBack
  rw [toTree_junction, toFormula_chain, List.map_map]
  rfl

/-!
## Reading a text

A text is derived as one tree only, so what is read from the text of a formula is known.
-/

section

variable {f : Formula} (hf : f.IsValid) (hnames : ∀ name ∈ f.names, IsIdentifier name)

include hf hnames

theorem writes_readBack : Writes f.levelBound .formula f.render f.readBack :=
  ⟨f.toTree, (rendersTree hf hnames (Nat.le_refl _)).whole, rfl⟩

theorem parse_eq_readBack {text : String} (htext : f.render = text)
    (hdepth : f.depth + f.termHeight ≤ 128) : parse text = .ok f.readBack := by
  have hlimit : f.levelBound ≤ 256 := Nat.mul_le_mul_left 2 hdepth
  rw [← htext]
  rcases parse_of_writes (writes_readBack hf hnames) with hok | ⟨hlt, _⟩
  · exact hok
  · exact absurd (Nat.le_succ_of_le hlimit) (Nat.not_le.mpr hlt)

theorem eq_readBack_of_parse {g : Formula} (h : parse f.render = .ok g) : g = f.readBack := by
  rcases parse_of_writes (writes_readBack hf hnames) with hok | ⟨_, offset, herror⟩
  · exact Except.ok.inj (h.symm.trans hok)
  · cases h.symm.trans herror

theorem readTree_render {g : Formula} (h : parse f.render = .ok g) :
    tokenize f.render >>= readTree = .ok f.toTree := by
  rcases readTree_of_writes (rendersTree hf hnames (Nat.le_refl _)).whole with
    hok | ⟨_, offset, herror⟩
  · exact hok
  · rw [parse_eq_bind_readTree] at h
    change tokenize f.render >>= readTree = _ at herror
    rw [herror] at h
    cases h

end

theorem toTree_eq_of_render_eq {f g h : Formula} (hf : f.IsValid)
    (hfnames : ∀ name ∈ f.names, IsIdentifier name) (hg : g.IsValid)
    (hgnames : ∀ name ∈ g.names, IsIdentifier name) (hread : parse f.render = .ok h)
    (heq : g.render = f.render) : g.toTree = f.toTree := by
  have htree := readTree_render hf hfnames hread
  rw [← heq] at hread htree
  exact Except.ok.inj ((readTree_render hg hgnames hread).symm.trans htree)

/-!
## Reading back without a change of shape

The text does not tell a negated literal from the negation of the proposition.  If the
order of operands is kept, nothing but such negations changes.
-/

theorem isValid_negate {f : Formula} (h : f.IsValid) : (negate f).IsValid := by
  unfold negate
  split
  · exact h
  · exact h

theorem isJunction_negate (f : Formula) (k : Connective) : (negate f).isJunction k = false := by
  unfold negate
  split <;> rfl

theorem renderAt_negate (f : Formula) (nested : Bool) :
    (negate f).renderAt nested = (not f).renderAt nested := by
  unfold negate
  split
  · simp only [renderAt, ↓reduceIte, Bool.false_eq_true, String.empty_append]
  · rfl

theorem renderOperands_eq_map (fs : List Formula) :
    renderOperands fs = fs.map (fun f => f.renderAt true) := by
  induction fs with
  | nil => rfl
  | cons f fs ih => rw [renderOperands, ih, List.map_cons]

structure SameShape (f g : Formula) : Prop where
  valid : g.IsValid
  isJunction : ∀ k, g.isJunction k = f.isJunction k
  text : ∀ nested, g.renderAt nested = f.renderAt nested

theorem isValid_map_of_sameShape {change : Formula → Formula} {k : Connective} {fs : List Formula}
    (hf : (junction k fs).IsValid) (hascending : Ascending.IsAscending (fs.map change))
    (h : ∀ f ∈ fs, SameShape f (change f)) : (junction k (fs.map change)).IsValid := by
  rcases isValid_junction.mp hf with ⟨hlength, -, hoperands⟩
  refine isValid_junction.mpr ⟨?_, hascending, ?_⟩
  · rw [List.length_map]
    exact hlength
  · intro g hg
    rcases List.mem_map.mp hg with ⟨f, hf, rfl⟩
    exact ⟨((h f hf).isJunction k).trans (hoperands f hf).1, (h f hf).valid⟩

theorem sameShape_readBack {f : Formula} (hf : f.IsValid) (h : f.KeepsOrder) :
    SameShape f f.readBack := by
  induction f using induction_on_children with
  | step f ih =>
      have hparts : ∀ g ∈ f.children, SameShape g g.readBack :=
        fun g hg => ih g hg (hf.children hg) (h.children hg)
      cases f with
      | const | atom => exact ⟨hf, fun _ => rfl, fun _ => rfl⟩
      | literal name negated =>
          cases negated with
          | true | false => exact ⟨hf, fun _ => rfl, fun _ => rfl⟩
      | not body =>
          have hbody := hparts body List.mem_cons_self
          refine ⟨isValid_negate hbody.valid, isJunction_negate _, fun nested => ?_⟩
          calc (negate body.readBack).renderAt nested
              = (not body.readBack).renderAt nested := renderAt_negate _ _
            _ = (not body).renderAt nested := congrArg ("!" ++ ·) (hbody.text true)
      | next body =>
          have hbody := hparts body List.mem_cons_self
          exact ⟨hbody.valid, fun _ => rfl, fun _ => congrArg ("X " ++ ·) (hbody.text true)⟩
      | always body =>
          have hbody := hparts body List.mem_cons_self
          exact ⟨hbody.valid, fun _ => rfl, fun _ => congrArg ("G " ++ ·) (hbody.text true)⟩
      | eventually body =>
          have hbody := hparts body List.mem_cons_self
          exact ⟨hbody.valid, fun _ => rfl, fun _ => congrArg ("F " ++ ·) (hbody.text true)⟩
      | untl left right =>
          have hleft := hparts left List.mem_cons_self
          have hright := hparts right (List.mem_cons_of_mem _ List.mem_cons_self)
          refine ⟨isValid_untl.mpr ⟨hleft.valid, hright.valid⟩, fun _ => rfl, fun nested => ?_⟩
          show (untl left.readBack right.readBack).renderAt nested = _
          rw [renderAt, renderAt, hleft.text, hright.text]
      | release left right =>
          have hleft := hparts left List.mem_cons_self
          have hright := hparts right (List.mem_cons_of_mem _ List.mem_cons_self)
          refine ⟨isValid_release.mpr ⟨hleft.valid, hright.valid⟩, fun _ => rfl, fun nested => ?_⟩
          show (release left.readBack right.readBack).renderAt nested = _
          rw [renderAt, renderAt, hleft.text, hright.text]
      | junction k fs =>
          have hvalid := isValid_map_of_sameShape hf (h k fs OccursIn.root) hparts
          rw [readBack_junction, join_eq_junction hvalid]
          refine ⟨hvalid, fun _ => rfl, fun nested => ?_⟩
          have htexts : (fs.map readBack).map (fun f => f.renderAt true) =
              fs.map (fun f => f.renderAt true) := by
            rw [List.map_map]
            exact List.map_congr_left fun f hf => (hparts f hf).text true
          rw [renderAt, renderAt, renderOperands_eq_map, renderOperands_eq_map, htexts]

/-!
## The same text is read as the same tree

The trees below the tree of a printable formula are those of printable formulas.  A
formula with the tree of a printable one keeps the order of its operands, so the text
stays the same just in this case.
-/

end Formula

def Surface.Tree.parts : Surface.Tree → List Surface.Tree
  | not body => [body]
  | modal _ body => [body]
  | temporal _ left right => [left, right]
  | chain _ operands => operands
  | implies premise conclusion => [premise, conclusion]
  | iff left right => [left, right]
  | _ => []

namespace Formula

open Surface

theorem toTree_mem_parts {f g : Formula} (h : g ∈ f.children) : g.toTree ∈ f.toTree.parts := by
  cases f with
  | const | literal | atom => cases h
  | not | next | always | eventually | untl | release =>
      exact List.mem_map_of_mem (f := toTree) h
  | junction k fs =>
      rw [toTree_junction]
      exact List.mem_map_of_mem h

theorem exists_toTree_of_mem_parts {f : Formula} (hf : f.IsPrintable) {t : Tree}
    (ht : t ∈ f.toTree.parts) : ∃ g : Formula, g.IsPrintable ∧ g.toTree = t := by
  by_cases hliteral : ∃ name, f = literal name true
  · rcases hliteral with ⟨name, rfl⟩
    rcases List.mem_singleton.mp ht with rfl
    have hname := hf.identifiers name List.mem_cons_self
    exact ⟨literal name false, IsPrintable.literal hname false, rfl⟩
  · have hparts : f.toTree.parts = f.children.map toTree := by
      cases f with
      | literal name negated =>
          cases negated with
          | true => exact absurd ⟨name, rfl⟩ hliteral
          | false => rfl
      | junction k fs =>
          rw [toTree_junction]
          rfl
      | _ => rfl
    rw [hparts] at ht
    rcases List.mem_map.mp ht with ⟨g, hg, rfl⟩
    exact ⟨g, hf.children hg, rfl⟩

theorem exists_junction_of_toTree_eq_chain {f : Formula} {k : Connective} {ts : List Tree}
    (h : f.toTree = .chain k ts) : ∃ fs, f = junction k fs ∧ fs.map toTree = ts := by
  cases f with
  | junction l fs =>
      rw [toTree_junction] at h
      injection h with hk hts
      exact ⟨fs, congrArg (junction · fs) hk, hts⟩
  | literal name negated => cases negated <;> cases h
  | _ => cases h

theorem keepsOrder_of_toTree_eq {f g : Formula} (hg : g.IsPrintable) (h : g.toTree = f.toTree) :
    f.KeepsOrder := by
  intro k fs hoccurs
  induction hoccurs generalizing g with
  | root =>
      rw [toTree_junction] at h
      rcases exists_junction_of_toTree_eq_chain h with ⟨gs, rfl, htrees⟩
      have hvalues : gs.map readBack = gs :=
        (List.map_congr_left fun g hmem => toFormula_toTree (hg.children hmem)).trans
          (List.map_id' gs)
      have hsame : fs.map readBack = gs := by
        calc fs.map readBack
            = (fs.map toTree).map Tree.toFormula := (List.map_map ..).symm
          _ = (gs.map toTree).map Tree.toFormula := by rw [htrees]
          _ = gs.map readBack := List.map_map ..
          _ = gs := hvalues
      rw [hsame]
      exact (isValid_junction.mp hg.valid).2.1
  | part hpart _ ih =>
      have hmem := toTree_mem_parts hpart
      rw [← h] at hmem
      rcases exists_toTree_of_mem_parts hg hmem with ⟨g', hg', heq⟩
      exact ih hg' heq

theorem render_eq_iff_keepsOrder {f g : Formula} (hf : f.IsValid)
    (hnames : ∀ name ∈ f.names, IsIdentifier name) (hread : parse f.render = .ok g) :
    g.render = f.render ↔ f.KeepsOrder := by
  have hprintable := isPrintable_of_parse hread
  constructor
  · intro heq
    exact keepsOrder_of_toTree_eq hprintable
      (toTree_eq_of_render_eq hf hnames hprintable.valid hprintable.identifiers hread heq)
  · intro h
    rw [eq_readBack_of_parse hf hnames hread]
    exact (sameShape_readBack hf h).text false

end Formula

namespace Simplifier

open Formula

/-!
## Simplified formulas

The propositional laws leave nothing that cannot be written.
-/

theorem identifiers_run (s : Simplifier) {f : Formula} (hf : f.IsPrintable) :
    ∀ name ∈ (s.run f).1.names, Surface.IsIdentifier name :=
  fun name hname => hf.identifiers name (s.names_run_subset hf.valid hname)

theorem isPrintable_run (s : Simplifier) (hs : s.strategy ≠ .pullNext)
    (hpasses : 1 ≤ s.maxPasses) {f : Formula} (hf : f.IsPrintable) : (s.run f).1.IsPrintable where
  valid := s.isValid_run hf.valid
  identifiers := s.identifiers_run hf
  no_negated_proposition := by
    intro name hoccurs
    have hrules : Rule.propositional ⊆ s.strategy.rules := by
      cases hstrategy : s.strategy with
      | pullNext => exact absurd hstrategy hs
      | propositional | modal | aggressive => exact List.subset_append_left _ _
    have hnormal := (s.isNormal_run hpasses hf.valid).of_occursIn hoccurs
    exact hnormal.not_isRedex ((s.isValid_run hf.valid).of_occursIn hoccurs)
      ((Rule.isRedex_not_literal name false).mono hrules)

end Simplifier

namespace Formula

/-- The text of a simplified formula is read as that formula, unless the strategy moves
`next`; then the text stays the same just if the order of operands is kept.  After one more
reading it stays in any case. -/
theorem reread_simplify {text : String} {f g : Formula} (strategy : Strategy)
    (hparse : parse text = .ok f) (hread : parse (f.simplify strategy).render = .ok g) :
    (strategy ≠ .pullNext → g = f.simplify strategy) ∧
      (g.render = (f.simplify strategy).render ↔ (f.simplify strategy).KeepsOrder) ∧
        ∀ h, parse g.render = .ok h → h.render = g.render := by
  have hf := Surface.isPrintable_of_parse hparse
  have hg := Surface.isPrintable_of_parse hread
  have hvalid : (f.simplify strategy).IsValid :=
    Simplifier.isValid_run { strategy := strategy } hf.valid
  have hnames : ∀ name ∈ (f.simplify strategy).names, Surface.IsIdentifier name :=
    Simplifier.identifiers_run { strategy := strategy } hf
  refine ⟨fun hs => ?_, render_eq_iff_keepsOrder hvalid hnames hread, fun h hreread => ?_⟩
  · have hprintable : (f.simplify strategy).IsPrintable :=
      Simplifier.isPrintable_run { strategy := strategy } hs (Nat.le_add_left 1 63) hf
    rw [eq_readBack_of_parse hvalid hnames hread]
    exact Surface.toFormula_toTree hprintable
  · rw [eq_readBack_of_parse hg.valid hg.identifiers hreread]
    exact congrArg render (Surface.toFormula_toTree hg)

theorem reread_simplify_modal :
    parse "!X p & X !p" =
        .ok (junction .and [not (next (literal "p" false)), next (literal "p" true)]) ∧
      parse (simplify (junction .and [not (next (literal "p" false)), next (literal "p" true)])
        .modal).render = .ok (next (literal "p" true)) ∧
      next (literal "p" true) =
        simplify (junction .and [not (next (literal "p" false)), next (literal "p" true)])
          .modal := by
  have hp : Surface.IsIdentifier "p" :=
    ⟨⟨'p', [], rfl, Surface.isNameStart_iff.mp rfl, nofun⟩, by decide⟩
  have hf := parse_eq_readBack
    (f := junction .and [not (next (literal "p" false)), next (literal "p" true)]) rfl
    (by simpa [names, propositionNames, propositionNamesAll, variableNames, variableNamesAll]
      using hp)
    (show _ = "!X p & X !p" from rfl) (by decide)
  have hg := parse_eq_readBack (f := next (literal "p" true)) rfl
    (by simpa [names, propositionNames, variableNames] using hp) rfl (by decide)
  exact ⟨hf, hg, (reread_simplify .modal hf hg).1 (by decide)⟩

/-- Moving `next` puts a negation of a proposition beside the literal with the same text,
and reading merges the two. -/
theorem reread_pullNext_merges :
    parse "!X p & X !p" =
        .ok (junction .and [not (next (literal "p" false)), next (literal "p" true)]) ∧
      (simplify (junction .and [not (next (literal "p" false)), next (literal "p" true)])
        .pullNext).render = "X (!p & !p)" ∧
      parse "X (!p & !p)" = .ok (next (literal "p" true)) ∧
      (next (literal "p" true)).render = "X !p" := by
  have hp : Surface.IsIdentifier "p" :=
    ⟨⟨'p', [], rfl, Surface.isNameStart_iff.mp rfl, nofun⟩, by decide⟩
  have hf := parse_eq_readBack
    (f := junction .and [not (next (literal "p" false)), next (literal "p" true)]) rfl
    (by simpa [names, propositionNames, propositionNamesAll, variableNames, variableNamesAll]
      using hp)
    (show _ = "!X p & X !p" from rfl) (by decide)
  have hg := parse_eq_readBack
    (f := next (junction .and [literal "p" true, not (literal "p" false)])) rfl
    (by simpa [names, propositionNames, propositionNamesAll, variableNames, variableNamesAll]
      using hp)
    (show _ = "X (!p & !p)" from rfl) (by decide)
  exact ⟨hf, rfl, hg, rfl⟩

end Formula
end LinearTemporal

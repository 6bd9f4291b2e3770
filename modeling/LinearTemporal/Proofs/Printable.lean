import LinearTemporal.Proofs.CanonicalShape
import LinearTemporal.Proofs.Lexing
import LinearTemporal.Proofs.SurfaceGrammar

/-!
# Formulas that can be written

A formula can be written and read back if its junctions are in canonical shape, its names
are identifiers, and no negation stands directly above a proposition, since such a negation
is read as a negated literal.  Everything that reading builds is such a formula, because
every construction that it uses keeps the three conditions.
-/

namespace LinearTemporal
namespace Formula

structure IsPrintable (f : Formula) : Prop where
  valid : f.IsValid
  identifiers : ∀ name ∈ f.names, Surface.IsIdentifier name
  /-- The negation of a proposition is a literal. -/
  no_negated_proposition : ∀ name, ¬ OccursIn (not (literal name false)) f

/-!
## Parts of printable formulas

A formula is printable if its parts are and nothing is wrong at its root.  A leaf is
printable if its names are identifiers.
-/

namespace IsPrintable

theorem children {f g : Formula} (hf : f.IsPrintable) (hg : g ∈ f.children) : g.IsPrintable where
  valid := hf.valid.children hg
  identifiers name hname :=
    hf.identifiers name ((mem_names_iff (List.ne_nil_of_mem hg)).mpr ⟨g, hg, hname⟩)
  no_negated_proposition name h := hf.no_negated_proposition name (OccursIn.part hg h)

theorem of_children {f : Formula} (hchildren : f.children ≠ []) (hvalid : f.IsValid)
    (hroot : ∀ name, f ≠ not (literal name false)) (h : ∀ g ∈ f.children, g.IsPrintable) :
    f.IsPrintable where
  valid := hvalid
  identifiers name hname := by
    rcases (mem_names_iff hchildren).mp hname with ⟨g, hg, hname⟩
    exact (h g hg).identifiers name hname
  no_negated_proposition name hoccurs := by
    cases hoccurs with
    | root => exact hroot name rfl
    | part hg hoccurs => exact (h _ hg).no_negated_proposition name hoccurs

theorem of_leaf {f : Formula} (hchildren : f.children = []) (hvalid : f.IsValid)
    (hnames : ∀ name ∈ f.names, Surface.IsIdentifier name) :
    f.IsPrintable where
  valid := hvalid
  identifiers := hnames
  no_negated_proposition name hoccurs := by
    cases hoccurs with
    | root => cases hchildren
    | part hg _ =>
        rw [hchildren] at hg
        cases hg

theorem const (value : Bool) : (const value).IsPrintable :=
  of_leaf rfl (show _ = _ from rfl) nofun

theorem literal {name : String} (h : Surface.IsIdentifier name) (negated : Bool) :
    (literal name negated).IsPrintable := by
  apply of_leaf rfl (show _ = _ from rfl)
  intro name' hname'
  rcases List.mem_singleton.mp hname' with rfl
  exact h

theorem atom {left right : Term} (op : Comparison)
    (hleft : ∀ name ∈ left.variableNames, Surface.IsIdentifier name)
    (hright : ∀ name ∈ right.variableNames, Surface.IsIdentifier name) :
    (atom left op right).IsPrintable := by
  apply of_leaf rfl (show _ = _ from rfl)
  intro name hname
  have hvariables : name ∈ left.variableNames ++ right.variableNames := hname
  rcases List.mem_append.mp hvariables with hname | hname
  · exact hleft name hname
  · exact hright name hname

theorem not {f : Formula} (h : f.IsPrintable) (hf : ∀ name, f ≠ .literal name false) :
    (not f).IsPrintable := by
  apply of_children (f := Formula.not f) (List.cons_ne_nil f []) h.valid
  · rintro name ⟨⟩
    exact hf name rfl
  · intro g hg
    rcases List.mem_singleton.mp hg with rfl
    exact h

theorem modal {f : Formula} (op : Surface.Modality) (h : f.IsPrintable) :
    (op.apply f).IsPrintable := by
  have hchildren : ∀ g ∈ [f], g.IsPrintable := by
    intro g hg
    rcases List.mem_singleton.mp hg with rfl
    exact h
  cases op with
  | next | always | eventually =>
      exact of_children (List.cons_ne_nil _ _) h.valid nofun hchildren

theorem of_pair {f g : Formula} (hf : f.IsPrintable) (hg : g.IsPrintable) :
    ∀ h ∈ [f, g], h.IsPrintable := by
  intro h hh
  rcases List.mem_cons.mp hh with rfl | hh
  · exact hf
  · rcases List.mem_singleton.mp hh with rfl
    exact hg

theorem untl {f g : Formula} (hf : f.IsPrintable) (hg : g.IsPrintable) :
    (untl f g).IsPrintable :=
  of_children (List.cons_ne_nil _ _) (isValid_untl.mpr ⟨hf.valid, hg.valid⟩) nofun (of_pair hf hg)

theorem release {f g : Formula} (hf : f.IsPrintable) (hg : g.IsPrintable) :
    (release f g).IsPrintable :=
  of_children (List.cons_ne_nil _ _) (isValid_release.mpr ⟨hf.valid, hg.valid⟩) nofun
    (of_pair hf hg)

theorem join {k : Connective} {fs : List Formula} (h : ∀ f ∈ fs, f.IsPrintable) :
    (join k fs).IsPrintable := by
  have hoperands : ∀ g ∈ joinOperands k fs, g.IsPrintable :=
    forall_joinOperands (fun _ hf _ => hf.children) h
  have hvalid : (Formula.join k fs).IsValid := isValid_join fun f hf => (h f hf).valid
  rw [join_eq_collapse] at hvalid ⊢
  match hshape : joinOperands k fs with
  | [] => exact const k.neutral
  | [f] =>
      rw [hshape] at hoperands
      exact hoperands f List.mem_cons_self
  | f :: g :: gs =>
      rw [hshape] at hoperands hvalid
      exact of_children (List.cons_ne_nil _ _) hvalid nofun hoperands

end IsPrintable

end Formula

/-!
## What is read

The names of a term, and those of a formula, are among its tokens.  So if all of these
are identifiers, those of the formula are.
-/

namespace Surface

variable {f g : Formula}

theorem isPrintable_negate (h : f.IsPrintable) : (negate f).IsPrintable := by
  unfold negate
  split
  · exact Formula.IsPrintable.literal (h.identifiers _ List.mem_cons_self) true
  · rename_i hf
    exact h.not hf

theorem isPrintable_temporal (op : TemporalOperator) (hf : f.IsPrintable) (hg : g.IsPrintable) :
    (op.apply f g).IsPrintable := by
  cases op with
  | untl => exact hf.untl hg
  | release => exact hf.release hg
  | weakUntil => exact hg.release (.join (.of_pair hf hg))
  | strongRelease => exact hg.untl (.join (.of_pair hf hg))

theorem isPrintable_implication (hf : f.IsPrintable) (hg : g.IsPrintable) :
    (implication f g).IsPrintable :=
  .join (.of_pair (isPrintable_negate hf) hg)

theorem isPrintable_equivalence (hf : f.IsPrintable) (hg : g.IsPrintable) :
    (equivalence f g).IsPrintable := by
  have hneither := Formula.IsPrintable.of_pair (isPrintable_negate hf) (isPrintable_negate hg)
  exact .join (.of_pair (.join (.of_pair hf hg)) (.join hneither))

variable {n : Nat} {ts : List Token}

theorem DerivesTerm.name_mem {symbol : TermSymbol} {t : Term} (h : DerivesTerm n symbol ts t) :
    ∀ name ∈ t.variableNames, .name name ∈ ts := by
  induction h with
  | ofProduct _ ih | ofFactor _ ih => exact ih
  | sum _ _ _ ihleft ihright | mul _ _ ihleft ihright =>
      intro name hname
      rcases List.mem_append.mp hname with hname | hname
      · exact List.mem_append_left _ (ihleft name hname)
      · exact List.mem_append_right _ (List.mem_cons_of_mem _ (ihright name hname))
  | name =>
      intro name hname
      rcases List.mem_singleton.mp hname with rfl
      exact List.mem_cons_self
  | integer | negative => exact nofun
  | neg _ _ ih =>
      intro name hname
      exact List.mem_cons_of_mem _ (ih name hname)
  | paren _ ih =>
      intro name hname
      exact List.mem_cons_of_mem _ (List.mem_append_left _ (ih name hname))

theorem mem_intercalate {α : Type} {separator : List α} {pieces : List (List α)} {x : α}
    {piece : List α} (hx : x ∈ piece) (hpiece : piece ∈ pieces) :
    x ∈ separator.intercalate pieces := by
  induction pieces with
  | nil => cases hpiece
  | cons first rest ih =>
      cases rest with
      | nil =>
          rcases List.mem_singleton.mp hpiece with rfl
          rw [List.intercalate_singleton]
          exact hx
      | cons second rest =>
          rw [List.intercalate_cons_cons]
          rcases List.mem_cons.mp hpiece with rfl | hpiece
          · exact List.mem_append_left _ (List.mem_append_left _ hx)
          · exact List.mem_append_right _ (ih hpiece)

theorem toFormulas_eq_map (trees : List Tree) :
    Tree.toFormulas trees = trees.map Tree.toFormula := by
  induction trees with
  | nil => rfl
  | cons tree trees ih => rw [Tree.toFormulas, ih, List.map_cons]

def HasIdentifiers (ts : List Token) : Prop :=
  ∀ name, .name name ∈ ts → IsIdentifier name

theorem HasIdentifiers.of_subset {us : List Token} (h : HasIdentifiers us) (hsub : ts ⊆ us) :
    HasIdentifiers ts :=
  fun name hname => h name (hsub hname)

theorem HasIdentifiers.left {us : List Token} (h : HasIdentifiers (ts ++ us)) :
    HasIdentifiers ts :=
  h.of_subset (List.subset_append_left ts us)

theorem HasIdentifiers.right {us : List Token} (h : HasIdentifiers (ts ++ us)) :
    HasIdentifiers us :=
  h.of_subset (List.subset_append_right ts us)

theorem HasIdentifiers.tail {token : Token} (h : HasIdentifiers (token :: ts)) :
    HasIdentifiers ts :=
  h.of_subset (List.subset_cons_self token ts)

/-- What the grammar derives from names that are identifiers is printable. -/
theorem Derives.isPrintable {symbol : FormulaSymbol} {t : Tree} (h : Derives n symbol ts t)
    (hnames : HasIdentifiers ts) : t.toFormula.IsPrintable := by
  induction h with
  | ofImplication _ ih | ofJunction _ ih | ofOperand _ ih | ofUnary _ ih | ofPrimary _ ih =>
      exact ih hnames
  | iff _ _ ihleft ihright =>
      exact isPrintable_equivalence (ihleft hnames.left) (ihright hnames.right.tail)
  | implies _ _ ihpremise ihconclusion =>
      exact isPrintable_implication (ihpremise hnames.left) (ihconclusion hnames.right.tail)
  | temporal _ _ ihleft ihright =>
      exact isPrintable_temporal _ (ihleft hnames.left) (ihright hnames.right.tail)
  | @chain n k operands _ _ ih =>
      rw [Tree.toFormula, toFormulas_eq_map, List.map_map]
      apply Formula.IsPrintable.join
      intro f hf
      rcases List.mem_map.mp hf with ⟨operand, hoperand, rfl⟩
      apply ih operand hoperand
      intro name hname
      exact hnames name (mem_intercalate hname (List.mem_map_of_mem hoperand))
  | not _ ih => exact isPrintable_negate (ih hnames.tail)
  | modal _ ih => exact Formula.IsPrintable.modal _ (ih hnames.tail)
  | atom hleft hright =>
      exact Formula.IsPrintable.atom _
        (fun name hname => hnames.left name (hleft.name_mem name hname))
        (fun name hname => hnames.right.tail name (hright.name_mem name hname))
  | constant => exact Formula.IsPrintable.const _
  | proposition => exact Formula.IsPrintable.literal (hnames _ List.mem_cons_self) false
  | paren _ ih => exact ih hnames.tail.left

end Surface
end LinearTemporal

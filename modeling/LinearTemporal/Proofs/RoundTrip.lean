import LinearTemporal.Proofs.ParserCompleteness
import LinearTemporal.Proofs.Printable
import LinearTemporal.Proofs.TermPrinting

/-!
# Printing and reading are inverse

The text of a formula that can be written is read as that formula.  An operand is written
so that the grammar derives it where a unary operator may stand, with parentheses around
atoms, binary operators and junctions; so it fits under every operator.  Every step down
the tree takes at most two levels, one for the operator and one for parentheses.
-/

namespace LinearTemporal
namespace Formula

mutual

def termHeight : Formula → Nat
  | atom left _ right => max left.height right.height
  | not body => body.termHeight
  | next body => body.termHeight
  | always body => body.termHeight
  | eventually body => body.termHeight
  | untl left right => max left.termHeight right.termHeight
  | release left right => max left.termHeight right.termHeight
  | junction _ operands => termHeightAll operands
  | _ => 0

def termHeightAll : List Formula → Nat
  | [] => 0
  | f :: fs => max f.termHeight (termHeightAll fs)

end

theorem depth_le_depthAll {f : Formula} {fs : List Formula} (h : f ∈ fs) :
    f.depth ≤ depthAll fs := by
  induction h with
  | head fs => exact Nat.le_max_left _ _
  | tail g _ ih => exact Nat.le_trans ih (Nat.le_max_right _ _)

theorem termHeight_le_termHeightAll {f : Formula} {fs : List Formula} (h : f ∈ fs) :
    f.termHeight ≤ termHeightAll fs := by
  induction h with
  | head fs => exact Nat.le_max_left _ _
  | tail g _ ih => exact Nat.le_trans ih (Nat.le_max_right _ _)

theorem depth_lt_of_mem_children {f g : Formula} (h : g ∈ f.children) : g.depth < f.depth := by
  cases f with
  | const | literal | atom => cases h
  | not body | next body | always body | eventually body =>
      rcases List.mem_singleton.mp h with rfl
      exact Nat.lt_succ_self _
  | untl left right | release left right =>
      rcases List.mem_cons.mp h with rfl | h
      · exact Nat.lt_succ_of_le (Nat.le_max_left _ _)
      · rcases List.mem_singleton.mp h with rfl
        exact Nat.lt_succ_of_le (Nat.le_max_right _ _)
  | junction k fs => exact Nat.lt_succ_of_le (depth_le_depthAll h)

theorem termHeight_le_of_mem_children {f g : Formula} (h : g ∈ f.children) :
    g.termHeight ≤ f.termHeight := by
  cases f with
  | const | literal | atom => cases h
  | not body | next body | always body | eventually body =>
      rcases List.mem_singleton.mp h with rfl
      exact Nat.le_refl _
  | untl left right | release left right =>
      rcases List.mem_cons.mp h with rfl | h
      · exact Nat.le_max_left _ _
      · rcases List.mem_singleton.mp h with rfl
        exact Nat.le_max_right _ _
  | junction k fs => exact termHeight_le_termHeightAll h

/-- Levels that are enough for the text of a formula. -/
def levelBound (f : Formula) : Nat :=
  2 * (f.depth + f.termHeight)

theorem levelBound_add_two_le {f g : Formula} (h : g ∈ f.children) :
    g.levelBound + 2 ≤ f.levelBound := by
  have hdepth := depth_lt_of_mem_children h
  have hheight := termHeight_le_of_mem_children h
  unfold levelBound
  omega

theorem depth_pos (f : Formula) : 0 < f.depth := by
  cases f with
  | const | literal | atom | not | next | always | eventually | untl | release | junction =>
      exact Nat.succ_pos _

theorem two_le_levelBound (f : Formula) : 2 ≤ f.levelBound :=
  Nat.mul_le_mul_left 2 (Nat.le_add_right_of_le f.depth_pos)

/-!
## The tree of the text

The tree of a formula that can be written stands for that formula.  A negated literal is
written as the negation of a proposition, and read as the literal again.
-/

mutual

def toTree : Formula → Surface.Tree
  | const value => .constant value
  | literal name true => .not (.proposition name)
  | literal name false => .proposition name
  | atom left op right => .atom left op right
  | not body => .not body.toTree
  | next body => .modal .next body.toTree
  | always body => .modal .always body.toTree
  | eventually body => .modal .eventually body.toTree
  | untl left right => .temporal .untl left.toTree right.toTree
  | release left right => .temporal .release left.toTree right.toTree
  | junction k operands => .chain k (toTrees operands)

def toTrees : List Formula → List Surface.Tree
  | [] => []
  | f :: fs => f.toTree :: toTrees fs

end

theorem toTrees_eq_map (fs : List Formula) : toTrees fs = fs.map toTree := by
  induction fs with
  | nil => rfl
  | cons f fs ih => rw [toTrees, ih, List.map_cons]

theorem toTree_junction (k : Connective) (fs : List Formula) :
    (junction k fs).toTree = .chain k (fs.map toTree) := by
  rw [toTree, toTrees_eq_map]

end Formula

namespace Surface

theorem negate_eq_not {f : Formula} (h : ∀ name, f ≠ .literal name false) :
    negate f = .not f := by
  unfold negate
  split
  · rename_i name
    exact absurd rfl (h name)
  · rfl

theorem toFormula_chain (k : Connective) (ts : List Tree) :
    (Tree.chain k ts).toFormula = Formula.join k (ts.map Tree.toFormula) := by
  rw [Tree.toFormula, toFormulas_eq_map]

theorem toFormula_toTree {f : Formula} (hf : f.IsPrintable) : f.toTree.toFormula = f := by
  induction f using Formula.induction_on_children with
  | step f ih =>
      have hparts : ∀ g ∈ f.children, g.toTree.toFormula = g :=
        fun g hg => ih g hg (hf.children hg)
      cases f with
      | const | atom => rfl
      | literal name negated => cases negated <;> rfl
      | not body =>
          have hplain : ∀ name, body ≠ .literal name false := by
            rintro name rfl
            exact hf.no_negated_proposition name Formula.OccursIn.root
          have hbody := hparts body List.mem_cons_self
          show negate body.toTree.toFormula = .not body
          rw [hbody, negate_eq_not hplain]
      | next body => exact congrArg Formula.next (hparts body List.mem_cons_self)
      | always body => exact congrArg Formula.always (hparts body List.mem_cons_self)
      | eventually body => exact congrArg Formula.eventually (hparts body List.mem_cons_self)
      | untl left right =>
          have hleft := hparts left List.mem_cons_self
          have hright := hparts right (List.mem_cons_of_mem _ List.mem_cons_self)
          show Formula.untl left.toTree.toFormula right.toTree.toFormula = _
          rw [hleft, hright]
      | release left right =>
          have hleft := hparts left List.mem_cons_self
          have hright := hparts right (List.mem_cons_of_mem _ List.mem_cons_self)
          show Formula.release left.toTree.toFormula right.toTree.toFormula = _
          rw [hleft, hright]
      | junction k fs =>
          have hoperands : fs.map (fun f => f.toTree.toFormula) = fs :=
            (List.map_congr_left hparts).trans (List.map_id' fs)
          rw [Formula.toTree_junction, toFormula_chain, List.map_map]
          exact (congrArg (Formula.join k) hoperands).trans (Formula.join_eq_junction hf.valid)

/-!
## Deriving a text

What stands under a unary operator may stand in a junction, and has parentheses where it
needs them.
-/

/-- The tokens of the text are derived as the tree. -/
def WritesTree (n : Nat) (symbol : FormulaSymbol) (text : String) (t : Tree) : Prop :=
  ∃ ts, Spells text ts ∧ Derives n symbol ts t

namespace WritesTree

variable {n : Nat} {text : String} {t : Tree}

theorem mono {m : Nat} {symbol : FormulaSymbol} (h : WritesTree n symbol text t) (hle : n ≤ m) :
    WritesTree m symbol text t := by
  rcases h with ⟨ts, hspells, hderives⟩
  exact ⟨ts, hspells, hderives.mono hle⟩

theorem junction_and (h : WritesTree n .unary text t) : WritesTree n (.junction .and) text t := by
  rcases h with ⟨ts, hspells, hderives⟩
  have hbinary : Derives n .binary ts t := Derives.ofUnary hderives
  exact ⟨ts, hspells, Derives.ofOperand hbinary⟩

theorem operand {k : Connective} (h : WritesTree n .unary text t) :
    WritesTree n (.operand k) text t := by
  cases k with
  | or => exact h.junction_and
  | and =>
      rcases h with ⟨ts, hspells, hderives⟩
      exact ⟨ts, hspells, Derives.ofUnary hderives⟩

theorem of_junction {k : Connective} (h : WritesTree n (.junction k) text t) :
    WritesTree n .formula text t := by
  rcases h with ⟨ts, hspells, hderives⟩
  have hor : Derives n (.junction .or) ts t := by
    cases k with
    | or => exact hderives
    | and => exact Derives.ofOperand hderives
  exact ⟨ts, hspells, Derives.ofImplication (Derives.ofJunction hor)⟩

theorem formula (h : WritesTree n .unary text t) : WritesTree n .formula text t :=
  h.junction_and.of_junction

theorem parenthesized (h : WritesTree n .formula text t) :
    WritesTree (n + 1) .unary ("(" ++ text ++ ")") t := by
  rcases h with ⟨ts, hspells, hderives⟩
  exact ⟨_, hspells.parenthesized, Derives.ofPrimary (Derives.paren hderives)⟩

theorem not (h : WritesTree n .unary text t) :
    WritesTree (n + 1) .unary ("!" ++ text) (.not t) := by
  rcases h with ⟨ts, hspells, hderives⟩
  exact ⟨_, hspells.negation, Derives.not hderives⟩

theorem modal (op : Modality) (h : WritesTree n .unary text t) :
    WritesTree (n + 1) .unary (op.symbol ++ " " ++ text) (.modal op t) := by
  rcases h with ⟨ts, hspells, hderives⟩
  exact ⟨_, hspells.prefixed (isSymbol_modality op), Derives.modal hderives⟩

theorem temporal {u : Tree} {text' : String} (op : TemporalOperator)
    (ht : WritesTree (n + 1) .unary text t) (hu : WritesTree n .unary text' u) :
    WritesTree (n + 1) .formula (text ++ " " ++ op.symbol ++ " " ++ text') (.temporal op t u) := by
  rcases ht with ⟨ts, hts, ht⟩
  rcases hu with ⟨us, hus, hu⟩
  have hbinary : Derives (n + 1) .binary (ts ++ .temporal op :: us) (.temporal op t u) :=
    Derives.temporal ht (Derives.ofUnary hu)
  have hwrites : WritesTree (n + 1) (.junction .and) _ (.temporal op t u) :=
    ⟨_, hts.infixed (isSymbol_temporal op) hus, Derives.ofOperand hbinary⟩
  exact hwrites.of_junction

theorem atom {left right : Term} (op : Comparison)
    (hleft : ∀ name ∈ left.variableNames, IsIdentifier name)
    (hright : ∀ name ∈ right.variableNames, IsIdentifier name)
    (hn : 2 * max left.height right.height + 1 ≤ n) :
    WritesTree n .formula (left.render ++ " " ++ op.symbol ++ " " ++ right.render)
      (.atom left op right) := by
  rcases (writesTerm_render (n := n) hleft (by omega)).term with ⟨ts, hts, hleft⟩
  rcases (writesTerm_render (n := n) hright (by omega)).term with ⟨us, hus, hright⟩
  have hunary : Derives n .unary (ts ++ .comparison op :: us) (.atom left op right) :=
    Derives.ofPrimary (Derives.atom hleft hright)
  have hwrites : WritesTree n .unary _ (.atom left op right) :=
    ⟨_, hts.infixed (isSymbol_comparison op) hus, hunary⟩
  exact hwrites.formula

theorem exists_operands {k : Connective} {fs : List Formula} (hne : fs ≠ [])
    (h : ∀ f ∈ fs, WritesTree n .unary (f.renderAt true) f.toTree) :
    ∃ operands : List (List Token × Tree), operands.map Prod.snd = fs.map Formula.toTree ∧
      (∀ operand ∈ operands, Derives n (.operand k) operand.1 operand.2) ∧
      Spells (String.intercalate (" " ++ k.symbol ++ " ") (Formula.renderOperands fs))
        ([.connective k].intercalate (operands.map Prod.fst)) := by
  induction fs with
  | nil => exact absurd rfl hne
  | cons f fs ih =>
      rcases (h f List.mem_cons_self).operand (k := k) with ⟨ts, hts, ht⟩
      cases fs with
      | nil =>
          refine ⟨[(ts, f.toTree)], rfl, ?_, ?_⟩
          · intro operand hoperand
            rcases List.mem_singleton.mp hoperand with rfl
            exact ht
          · rw [Formula.renderOperands, Formula.renderOperands, String.intercalate_singleton,
              List.map_singleton, List.intercalate_singleton]
            exact hts
      | cons g fs =>
          rcases ih (List.cons_ne_nil g fs) fun f hf => h f (List.mem_cons_of_mem _ hf) with
            ⟨operands, htrees, hall, hspells⟩
          have hoperands : operands.map Prod.fst ≠ [] := by
            intro hnil
            rw [List.map_eq_nil_iff.mp hnil] at htrees
            cases htrees
          refine ⟨(ts, f.toTree) :: operands, congrArg (f.toTree :: ·) htrees, ?_, ?_⟩
          · intro operand hoperand
            rcases List.mem_cons.mp hoperand with rfl | hoperand
            · exact ht
            · exact hall operand hoperand
          · have hspells' := hts.infixed (isSymbol_connective k) hspells
            rw [List.map_cons, List.intercalate_cons_of_ne_nil hoperands]
            simpa [Formula.renderOperands, String.append_assoc] using hspells'

theorem chain {k : Connective} {fs : List Formula} (htwo : 2 ≤ fs.length)
    (h : ∀ f ∈ fs, WritesTree n .unary (f.renderAt true) f.toTree) :
    WritesTree n .formula
      (String.intercalate (" " ++ k.symbol ++ " ") (Formula.renderOperands fs))
      (.chain k (fs.map Formula.toTree)) := by
  rcases exists_operands (k := k) (List.ne_nil_of_length_pos (Nat.zero_lt_of_lt htwo)) h with
    ⟨operands, htrees, hall, hspells⟩
  have hlength : operands.length = fs.length := by
    rw [← List.length_map (f := Prod.snd), htrees, List.length_map]
  have hchain := Derives.chain (hlength ▸ htwo) hall
  have hwrites : WritesTree n (.junction k) _ (.chain k (operands.map Prod.snd)) :=
    ⟨_, hspells, hchain⟩
  rw [htrees] at hwrites
  exact hwrites.of_junction

theorem constant (value : Bool) :
    WritesTree (n + 1) .unary ((Formula.const value).renderAt true) (.constant value) := by
  have hspells : Spells ((Formula.const value).renderAt true) [.constant value] := by
    cases value with
    | true => exact Spells.word rfl rfl rfl
    | false => exact Spells.word rfl rfl rfl
  exact ⟨_, hspells, Derives.ofPrimary Derives.constant⟩

theorem proposition {name : String} (h : IsIdentifier name) :
    WritesTree (n + 1) .unary name (.proposition name) :=
  ⟨_, Spells.identifier h, Derives.ofPrimary Derives.proposition⟩

end WritesTree

/-!
## The text of a formula

Both texts of a formula, the one as an operand and the one on its own, are derived as
its tree, with the levels that its height allows.
-/

/-- Both texts of a formula, the one as an operand and the one on its own, are derived as
its tree. -/
structure RendersTree (n : Nat) (f : Formula) : Prop where
  operand : WritesTree n .unary (f.renderAt true) f.toTree
  whole : WritesTree n .formula (f.renderAt false) f.toTree

section

variable {n : Nat} {f : Formula}

theorem RendersTree.of_unary (h : WritesTree n .unary (f.renderAt true) f.toTree)
    (hsame : f.renderAt true = f.renderAt false) : RendersTree n f :=
  ⟨h, hsame ▸ h.formula⟩

theorem RendersTree.of_formula (h : WritesTree n .formula (f.renderAt false) f.toTree)
    (hparens : f.renderAt true = "(" ++ f.renderAt false ++ ")") : RendersTree (n + 1) f :=
  ⟨hparens ▸ h.parenthesized, h.mono (Nat.le_succ n)⟩

theorem RendersTree.literal {name : String} (h : IsIdentifier name) (negated : Bool) :
    RendersTree (n + 2) (.literal name negated) := by
  cases negated with
  | true => exact RendersTree.of_unary (WritesTree.proposition h).not rfl
  | false =>
      have htext : (Formula.literal name false).renderAt true = name := String.empty_append
      apply RendersTree.of_unary _ rfl
      rw [htext]
      exact WritesTree.proposition h

theorem RendersTree.modal (op : Modality) (h : WritesTree n .unary (f.renderAt true) f.toTree) :
    RendersTree (n + 1) (op.apply f) := by
  have htext : ∀ nested, (op.apply f).renderAt nested = op.symbol ++ " " ++ f.renderAt true := by
    intro nested
    cases op with
    | next | always | eventually => rfl
  have htree : (op.apply f).toTree = .modal op f.toTree := by
    cases op with
    | next | always | eventually => rfl
  apply RendersTree.of_unary
  · rw [htext, htree]
    exact h.modal op
  · rw [htext, htext]

theorem RendersTree.temporal {g h : Formula} (op : TemporalOperator)
    (hf : WritesTree (n + 1) .unary (f.renderAt true) f.toTree)
    (hg : WritesTree n .unary (g.renderAt true) g.toTree)
    (htree : h.toTree = .temporal op f.toTree g.toTree)
    (htext : h.renderAt false = f.renderAt true ++ (" " ++ op.symbol ++ " ") ++ g.renderAt true)
    (hparens : h.renderAt true = "(" ++ h.renderAt false ++ ")") : RendersTree (n + 2) h := by
  apply RendersTree.of_formula _ hparens
  rw [htree, htext, ← String.append_assoc, ← String.append_assoc]
  exact hf.temporal op hg

theorem rendersTree (hf : f.IsValid) (hnames : ∀ name ∈ f.names, IsIdentifier name)
    (hn : f.levelBound ≤ n) : RendersTree n f := by
  induction f using Formula.induction_on_children generalizing n with
  | step f ih =>
      -- One level goes to the operator and one to the parentheses around it.
      rcases Nat.exists_eq_add_of_le' (Nat.le_trans f.two_le_levelBound hn) with ⟨m, rfl⟩
      have hoperand : ∀ g ∈ f.children, WritesTree m .unary (g.renderAt true) g.toTree := by
        intro g hg
        have hbound := Nat.le_trans (Formula.levelBound_add_two_le hg) hn
        have hpart : ∀ name ∈ g.names, IsIdentifier name := fun name hname =>
          hnames name ((Formula.mem_names_iff (List.ne_nil_of_mem hg)).mpr ⟨g, hg, hname⟩)
        exact (ih g hg (hf.children hg) hpart (Nat.le_of_add_le_add_right hbound)).operand
      have hoperand' : ∀ g ∈ f.children, WritesTree (m + 1) .unary (g.renderAt true) g.toTree :=
        fun g hg => (hoperand g hg).mono (Nat.le_succ m)
      cases f with
      | const value =>
          apply RendersTree.of_unary (WritesTree.constant value)
          cases value <;> rfl
      | literal name negated =>
          exact RendersTree.literal (hnames name List.mem_cons_self) negated
      | atom left op right =>
          apply RendersTree.of_formula _ rfl
          have hvariables : ∀ name ∈ left.variableNames ++ right.variableNames,
              IsIdentifier name := hnames
          apply WritesTree.atom op
          · intro name hname
            exact hvariables name (List.mem_append_left _ hname)
          · intro name hname
            exact hvariables name (List.mem_append_right _ hname)
          · have hbound : 2 * (1 + max left.height right.height) ≤ m + 2 := hn
            omega
      | not body => exact RendersTree.of_unary (hoperand' body List.mem_cons_self).not rfl
      | next body => exact RendersTree.modal .next (hoperand' body List.mem_cons_self)
      | always body => exact RendersTree.modal .always (hoperand' body List.mem_cons_self)
      | eventually body => exact RendersTree.modal .eventually (hoperand' body List.mem_cons_self)
      | untl left right =>
          exact RendersTree.temporal .untl (hoperand' left List.mem_cons_self)
            (hoperand right (List.mem_cons_of_mem _ List.mem_cons_self)) rfl rfl rfl
      | release left right =>
          exact RendersTree.temporal .release (hoperand' left List.mem_cons_self)
            (hoperand right (List.mem_cons_of_mem _ List.mem_cons_self)) rfl rfl rfl
      | junction k fs =>
          apply RendersTree.of_formula _ rfl
          rw [Formula.toTree_junction]
          exact WritesTree.chain (Formula.isValid_junction.mp hf).1 hoperand'

end

/-!
## Printing and reading

Reading the tokens of a text gives the tree that they are derived as.
-/

def Writes (n : Nat) (symbol : FormulaSymbol) (text : String) (f : Formula) : Prop :=
  ∃ t, WritesTree n symbol text t ∧ t.toFormula = f

structure WritesBoth (n : Nat) (f : Formula) : Prop where
  operand : Writes n .unary (f.renderAt true) f
  whole : Writes n .formula (f.renderAt false) f

variable {n : Nat} {f : Formula}

theorem writesBoth_render (hf : f.IsPrintable) (hn : f.levelBound ≤ n) : WritesBoth n f := by
  have hrenders := rendersTree hf.valid hf.identifiers hn
  have hvalue := toFormula_toTree hf
  exact ⟨⟨_, hrenders.operand, hvalue⟩, ⟨_, hrenders.whole, hvalue⟩⟩

theorem readTree_of_writes {text : String} {t : Tree} (h : WritesTree n .formula text t) :
    tokenize text >>= readTree = .ok t ∨
      nestingLimit + 1 < n ∧ ∃ offset, tokenize text >>= readTree = .error (.tooDeep offset) := by
  rcases h with ⟨ts, hspells, hderives⟩
  rcases hspells.scans 0 with ⟨tokens, hscan, rfl⟩
  have htokens : tokenize text = .ok tokens := hscan
  rw [htokens]
  exact readTree_of_derives hderives

theorem parse_eq_bind_readTree (text : String) :
    Formula.parse text = tokenize text >>= readTree >>= fun t => .ok t.toFormula := by
  unfold Formula.parse readFormula
  cases tokenize text with
  | error e => rfl
  | ok tokens => rfl

theorem parse_of_writes {text : String} (h : Writes n .formula text f) :
    Formula.parse text = .ok f ∨
      nestingLimit + 1 < n ∧ ∃ offset, Formula.parse text = .error (.tooDeep offset) := by
  rcases h with ⟨t, hwrites, rfl⟩
  rw [parse_eq_bind_readTree]
  rcases readTree_of_writes hwrites with hok | ⟨hlt, offset, herror⟩
  · left
    rw [hok]
    rfl
  · right
    refine ⟨hlt, offset, ?_⟩
    rw [herror]
    rfl

theorem isPrintable_of_parse {text : String} (h : Formula.parse text = .ok f) :
    f.IsPrintable := by
  rcases bind_eq_ok.mp h with ⟨tokens, htokens, hread⟩
  rcases bind_eq_ok.mp hread with ⟨t, ht, hreturn⟩
  cases hreturn
  rcases generates_of_readTree ht with ⟨n, hderives⟩
  exact hderives.isPrintable fun name hname => isIdentifier_of_scan htokens hname

end Surface

namespace Formula

/-- A formula that can be written is read back from its text, unless it nests too deeply,
which needs depth and term height of more than half the limit; and whatever is read from
any text can be written. -/
theorem parse_render :
    (∀ f : Formula, f.IsPrintable →
      (parse f.render = .ok f ∨ ∃ offset, parse f.render = .error (.tooDeep offset)) ∧
        (f.depth + f.termHeight ≤ 128 → parse f.render = .ok f)) ∧
      ∀ (text : String) (f : Formula), parse text = .ok f → f.IsPrintable := by
  constructor
  · intro f hf
    rcases Surface.parse_of_writes (Surface.writesBoth_render hf (Nat.le_refl _)).whole with
      hok | ⟨hlt, herror⟩
    · exact ⟨Or.inl hok, fun _ => hok⟩
    · refine ⟨Or.inr herror, fun hle => absurd hlt ?_⟩
      have hlimit : f.levelBound ≤ 256 := Nat.mul_le_mul_left 2 hle
      exact Nat.not_lt.mpr (Nat.le_succ_of_le hlimit)
  · intro text f h
    exact Surface.isPrintable_of_parse h

theorem parse_render_double_negation :
    parse (not (literal "p" true)).render = .ok (not (literal "p" true)) := by
  have hname : Surface.IsIdentifier "p" :=
    ⟨⟨'p', [], rfl, Surface.isNameStart_iff.mp rfl, nofun⟩, by decide⟩
  have hnegated : ∀ name, literal "p" true ≠ literal name false := by
    intro name h
    injection h with _ hnegated
    cases hnegated
  have hprintable := (IsPrintable.literal hname true).not hnegated
  exact (parse_render.1 _ hprintable).2 (by decide)

end Formula
end LinearTemporal

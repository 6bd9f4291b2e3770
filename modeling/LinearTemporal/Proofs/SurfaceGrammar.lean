import LinearTemporal.Surface.Grammar

/-!
# The grammar of the written language

The language of formulas as a grammar with one symbol for each level of precedence.  A
symbol derives lists of tokens, each with the tree or term that it stands for.  Chains
that associate to the left are left recursive, operators that associate to the right are
right recursive, and a chain of conjunctions or disjunctions takes any number of operands
at once.

A derivation also has a number of levels: what stands behind a prefix operator, behind an
operator that associates to the right, or in parentheses, has one level less.  A list
belongs to the language if some number of levels is enough for it.
-/

namespace LinearTemporal
namespace Surface

/-!
## Terms

A literal denotes its digits, after a minus or not, and has to fit into 64 bits.
-/

def Denotes (literal : String) (value : Int64) : Prop :=
  integer? literal.toList = some value.toInt

theorem integer?_of_decimal? {cs : List Char} {m : Nat} (h : decimal? cs = some m) :
    integer? cs = some (m : Int) := by
  unfold integer?
  split
  · rename_i cs
    have hsign : decimal? ('-' :: cs) = none := if_neg fun hdigits => by cases hdigits.2
    rw [hsign] at h
    cases h
  · rename_i cs
    have hsign : decimal? ('+' :: cs) = none := if_neg fun hdigits => by cases hdigits.2
    rw [hsign] at h
    cases h
  · rw [h]
    rfl

theorem integer?_minus (cs : List Char) :
    integer? (['-'] ++ cs) = (decimal? cs).map (fun m => -Int.ofNat m) :=
  rfl

inductive TermSymbol where
  | term
  | product
  | factor

inductive DerivesTerm : Nat → TermSymbol → List Token → Term → Prop where
  | ofProduct {n ts t} : DerivesTerm n .product ts t → DerivesTerm n .term ts t
  | sum {n ts us left right op} : op ≠ .mul →
      DerivesTerm n .term ts left → DerivesTerm n .product us right →
      DerivesTerm n .term (ts ++ .arithmetic op :: us) (.binary op left right)
  | ofFactor {n ts t} : DerivesTerm n .factor ts t → DerivesTerm n .product ts t
  | mul {n ts us left right} :
      DerivesTerm n .product ts left → DerivesTerm n .factor us right →
      DerivesTerm n .product (ts ++ .arithmetic .mul :: us) (.binary .mul left right)
  | name {n name} : DerivesTerm (n + 1) .factor [.name name] (.var name)
  | integer {n digits value} : Denotes digits value →
      DerivesTerm (n + 1) .factor [.digits digits] (.int value)
  /-- A minus directly before digits belongs to the literal. -/
  | negative {n digits value} : Denotes ("-" ++ digits) value →
      DerivesTerm (n + 1) .factor [.arithmetic .sub, .digits digits] (.int value)
  | neg {n ts body} : (∀ digits us, ts ≠ .digits digits :: us) →
      DerivesTerm n .factor ts body →
      DerivesTerm (n + 1) .factor (.arithmetic .sub :: ts) (.neg body)
  | paren {n ts t} : DerivesTerm n .term ts t →
      DerivesTerm (n + 1) .factor (.openParen :: (ts ++ [.closeParen])) t

/-!
## Formulas

Conjunction binds more tightly than disjunction, so its operands are of another level.
-/

inductive FormulaSymbol where
  | formula
  | implication
  | junction (k : Connective)
  | binary
  | unary
  | primary

def FormulaSymbol.operand : Connective → FormulaSymbol
  | .or => .junction .and
  | .and => .binary

inductive Derives : Nat → FormulaSymbol → List Token → Tree → Prop where
  | ofImplication {n ts t} : Derives n .implication ts t → Derives n .formula ts t
  | iff {n ts us left right} : Derives n .formula ts left → Derives n .implication us right →
      Derives n .formula (ts ++ .iff :: us) (.iff left right)
  | ofJunction {n ts t} : Derives n (.junction .or) ts t → Derives n .implication ts t
  | implies {n ts us premise conclusion} : Derives (n + 1) (.junction .or) ts premise →
      Derives n .implication us conclusion →
      Derives (n + 1) .implication (ts ++ .implies :: us) (.implies premise conclusion)
  | ofOperand {n k ts t} : Derives n (.operand k) ts t → Derives n (.junction k) ts t
  | chain {n k} {operands : List (List Token × Tree)} : 2 ≤ operands.length →
      (∀ operand ∈ operands, Derives n (.operand k) operand.1 operand.2) →
      Derives n (.junction k) ([.connective k].intercalate (operands.map Prod.fst))
        (.chain k (operands.map Prod.snd))
  | ofUnary {n ts t} : Derives n .unary ts t → Derives n .binary ts t
  | temporal {n ts us op left right} : Derives (n + 1) .unary ts left →
      Derives n .binary us right →
      Derives (n + 1) .binary (ts ++ .temporal op :: us) (.temporal op left right)
  | ofPrimary {n ts t} : Derives n .primary ts t → Derives n .unary ts t
  | not {n ts body} : Derives n .unary ts body → Derives (n + 1) .unary (.not :: ts) (.not body)
  | modal {n ts op body} : Derives n .unary ts body →
      Derives (n + 1) .unary (.modality op :: ts) (.modal op body)
  | atom {n ts us op left right} : DerivesTerm n .term ts left → DerivesTerm n .term us right →
      Derives n .primary (ts ++ .comparison op :: us) (.atom left op right)
  | constant {n value} : Derives (n + 1) .primary [.constant value] (.constant value)
  | proposition {n name} : Derives (n + 1) .primary [.name name] (.proposition name)
  | paren {n ts t} : Derives n .formula ts t →
      Derives (n + 1) .primary (.openParen :: (ts ++ [.closeParen])) t

/-- The grammar derives the tokens as a formula. -/
def Generates (ts : List Token) (t : Tree) : Prop :=
  ∃ levels, Derives levels .formula ts t

/-!
## Chains

Each chain is one operand followed by separators with an operand after them.  In this form
it does not matter to which side a chain associates.
-/

section

variable {α β γ : Type} (separator : Token → Option β) (R : List Token → α → Prop)

inductive ChainTail : List Token → List (β × α) → Prop where
  | nil : ChainTail [] []
  | cons {token mark us x vs more} : separator token = some mark → R us x → ChainTail vs more →
      ChainTail (token :: (us ++ vs)) ((mark, x) :: more)

/-- A chain of operands whose value is `join` of the first one and the others. -/
def IsChain (join : α → List (β × α) → γ) (ts : List Token) (y : γ) : Prop :=
  ∃ us vs first more, ts = us ++ vs ∧ R us first ∧ ChainTail separator R vs more ∧
    y = join first more

variable {separator R}

theorem ChainTail.append {us vs : List Token} {more rest : List (β × α)}
    (h : ChainTail separator R us more) (h' : ChainTail separator R vs rest) :
    ChainTail separator R (us ++ vs) (more ++ rest) := by
  induction h with
  | nil => exact h'
  | cons hmark hx _ ih =>
      have htail := ChainTail.cons hmark hx ih
      rw [← List.append_assoc] at htail
      exact htail

theorem IsChain.single {join : α → List (β × α) → γ} {ts : List Token} {x : α} (h : R ts x) :
    IsChain separator R join ts (join x []) :=
  ⟨ts, [], x, [], (List.append_nil ts).symm, h, ChainTail.nil, rfl⟩

variable {step : α → β × α → α}

theorem IsChain.snoc {ts us : List Token} {token : Token} {mark : β} {x y : α}
    (h : IsChain separator R (fun first more => more.foldl step first) ts x)
    (hmark : separator token = some mark) (hy : R us y) :
    IsChain separator R (fun first more => more.foldl step first) (ts ++ token :: us)
      (step x (mark, y)) := by
  rcases h with ⟨us', vs, first, more, rfl, hfirst, hmore, rfl⟩
  have hlast := ChainTail.cons hmark hy ChainTail.nil
  rw [List.append_nil] at hlast
  refine ⟨us', vs ++ token :: us, first, more ++ [(mark, y)], ?_, hfirst, hmore.append hlast, ?_⟩
  · rw [List.append_assoc]
  · simp

theorem IsChain.induction {motive : List Token → α → Prop} {ts : List Token} {x : α}
    (h : IsChain separator R (fun first more => more.foldl step first) ts x)
    (single : ∀ {ts x}, R ts x → motive ts x)
    (snoc : ∀ {ts x token mark us y}, motive ts x → separator token = some mark → R us y →
      motive (ts ++ token :: us) (step x (mark, y))) : motive ts x := by
  rcases h with ⟨us, vs, first, more, rfl, hfirst, hmore, rfl⟩
  have hmotive := single hfirst
  clear hfirst
  induction hmore generalizing us first with
  | nil => simpa using hmotive
  | cons hmark hx _ ih =>
      have hrest := ih _ _ (snoc hmotive hmark hx)
      simpa using hrest

end

/-!
## The chains of the grammar

A tail with one separator is a list of operands, and its tokens are theirs with the
separator between them.  One operand alone is no chain.
-/

theorem Token.multiplicative?_eq_some_iff {token : Token} {op : Arithmetic} :
    token.multiplicative? = some op ↔ token = .arithmetic .mul ∧ op = .mul := by
  unfold Token.multiplicative?
  split <;> simp_all [eq_comm]

theorem Token.additive?_eq_some_iff {token : Token} {op : Arithmetic} :
    token.additive? = some op ↔ token = .arithmetic op ∧ op ≠ .mul := by
  unfold Token.additive?
  split
  · cases op <;> simp
  · cases op <;> simp
  · cases op <;> simp_all

theorem Token.only_eq_some_iff {expected token : Token} {mark : Unit} :
    expected.only token = some mark ↔ token = expected := by
  unfold Token.only
  split <;> simp_all

variable {n : Nat} {ts : List Token}

theorem derivesTerm_product_iff {t : Term} :
    DerivesTerm n .product ts t ↔
      IsChain Token.multiplicative? (DerivesTerm n .factor) Parser.foldArithmetic ts t := by
  constructor
  · intro h
    generalize hsymbol : TermSymbol.product = symbol at h
    induction h with
    | ofFactor h _ => exact IsChain.single h
    | mul _ hright ih _ => exact (ih hsymbol).snoc rfl hright
    | _ => cases hsymbol
  · intro h
    apply IsChain.induction h
    · exact DerivesTerm.ofFactor
    · intro us x token mark vs y hleft hmark hright
      rcases Token.multiplicative?_eq_some_iff.mp hmark with ⟨rfl, rfl⟩
      exact DerivesTerm.mul hleft hright

theorem derivesTerm_term_iff {t : Term} :
    DerivesTerm n .term ts t ↔
      IsChain Token.additive? (DerivesTerm n .product) Parser.foldArithmetic ts t := by
  constructor
  · intro h
    generalize hsymbol : TermSymbol.term = symbol at h
    induction h with
    | ofProduct h _ => exact IsChain.single h
    | sum hop _ hright ih _ =>
        exact (ih hsymbol).snoc (Token.additive?_eq_some_iff.mpr ⟨rfl, hop⟩) hright
    | _ => cases hsymbol
  · intro h
    apply IsChain.induction h
    · exact DerivesTerm.ofProduct
    · intro us x token mark vs y hleft hmark hright
      rcases Token.additive?_eq_some_iff.mp hmark with ⟨rfl, hop⟩
      exact DerivesTerm.sum hop hleft hright

theorem derives_formula_iff {t : Tree} :
    Derives n .formula ts t ↔
      IsChain (Token.only .iff) (Derives n .implication)
        (fun first more => more.foldl (fun left entry => .iff left entry.2) first) ts t := by
  constructor
  · intro h
    generalize hsymbol : FormulaSymbol.formula = symbol at h
    induction h with
    | ofImplication h _ => exact IsChain.single h
    | iff _ hright ih _ => exact (ih hsymbol).snoc rfl hright
    | _ => cases hsymbol
  · intro h
    apply IsChain.induction h
    · exact Derives.ofImplication
    · intro us x token mark vs y hleft hmark hright
      rcases Token.only_eq_some_iff.mp hmark with rfl
      exact Derives.iff hleft hright

theorem ChainTail.exists_operands {α : Type} {R : List Token → α → Prop} {separator : Token}
    {vs : List Token} {more : List (Unit × α)} (h : ChainTail separator.only R vs more) :
    ∃ operands : List (List Token × α), (∀ operand ∈ operands, R operand.1 operand.2) ∧
      operands.map Prod.snd = more.map Prod.snd ∧
        ∀ us, [separator].intercalate (us :: operands.map Prod.fst) = us ++ vs := by
  induction h with
  | nil => exact ⟨[], by simp, rfl, fun us => by simp⟩
  | @cons token mark us x vs more hmark hx _ ih =>
      rcases ih with ⟨operands, hoperands, hvalues, htokens⟩
      rcases Token.only_eq_some_iff.mp hmark with rfl
      refine ⟨(us, x) :: operands, ?_, ?_, ?_⟩
      · intro operand hoperand
        rcases List.mem_cons.mp hoperand with rfl | hoperand
        · exact hx
        · exact hoperands operand hoperand
      · rw [List.map_cons, List.map_cons, hvalues]
      · intro us'
        rw [List.map_cons, List.intercalate_cons_cons, htokens, List.append_assoc]
        rfl

theorem ChainTail.of_operands {α : Type} {R : List Token → α → Prop} (separator : Token)
    {operands : List (List Token × α)} (h : ∀ operand ∈ operands, R operand.1 operand.2) :
    ∃ vs, ChainTail separator.only R vs (operands.map fun operand => ((), operand.2)) ∧
      ∀ us, [separator].intercalate (us :: operands.map Prod.fst) = us ++ vs := by
  induction operands with
  | nil => exact ⟨[], ChainTail.nil, fun us => by simp⟩
  | cons operand operands ih =>
      rcases ih fun o ho => h o (List.mem_cons_of_mem operand ho) with ⟨vs, htail, htokens⟩
      have hmark : separator.only separator = some () := Token.only_eq_some_iff.mpr rfl
      refine ⟨separator :: (operand.1 ++ vs),
        ChainTail.cons hmark (h operand List.mem_cons_self) htail, ?_⟩
      intro us
      rw [List.map_cons, List.intercalate_cons_cons, htokens, List.append_assoc]
      rfl

def junctionTree (k : Connective) (first : Tree) : List (Unit × Tree) → Tree
  | [] => first
  | entry :: more => .chain k (first :: entry.2 :: more.map Prod.snd)

theorem derives_junction_iff {k : Connective} {t : Tree} :
    Derives n (.junction k) ts t ↔
      IsChain (Token.only (.connective k)) (Derives n (.operand k)) (junctionTree k) ts t := by
  constructor
  · intro h
    cases h with
    | ofOperand h => exact IsChain.single h
    | @chain _ _ operands hlength hoperands =>
        match operands with
        | [] | [_] => simp at hlength
        | first :: second :: rest =>
            rcases ChainTail.of_operands (.connective k)
              (fun o ho => hoperands o (List.mem_cons_of_mem first ho)) with ⟨vs, htail, htokens⟩
            refine ⟨first.1, vs, first.2, _, htokens first.1,
              hoperands first List.mem_cons_self, htail, ?_⟩
            simp [junctionTree]
  · intro h
    rcases h with ⟨us, vs, first, more, rfl, hfirst, hmore, rfl⟩
    rcases hmore.exists_operands with ⟨operands, hoperands, hvalues, htokens⟩
    cases more with
    | nil =>
        cases hmore
        rw [List.append_nil]
        exact Derives.ofOperand hfirst
    | cons entry more =>
        have hlength : 2 ≤ ((us, first) :: operands).length := by
          have hlengths := congrArg List.length hvalues
          simp only [List.length_map, List.length_cons] at hlengths ⊢
          omega
        have hall : ∀ operand ∈ (us, first) :: operands,
            Derives n (.operand k) operand.1 operand.2 := by
          intro operand hoperand
          rcases List.mem_cons.mp hoperand with rfl | hoperand
          · exact hfirst
          · exact hoperands operand hoperand
        have hchain := Derives.chain hlength hall
        rw [List.map_cons, List.map_cons, htokens, hvalues] at hchain
        exact hchain

/-!
## Levels

Every derivation needs at least one.
-/

theorem DerivesTerm.levels_pos {symbol : TermSymbol} {t : Term} (h : DerivesTerm n symbol ts t) :
    0 < n := by
  induction h with
  | name | integer | negative | neg | paren => exact Nat.succ_pos _
  | ofProduct _ ih | ofFactor _ ih => exact ih
  | sum _ _ _ ih _ | mul _ _ ih _ => exact ih

theorem Derives.levels_pos {symbol : FormulaSymbol} {t : Tree} (h : Derives n symbol ts t) :
    0 < n := by
  induction h with
  | implies | temporal | not | modal | constant | proposition | paren => exact Nat.succ_pos _
  | ofImplication _ ih | ofJunction _ ih | ofOperand _ ih | ofUnary _ ih | ofPrimary _ ih =>
      exact ih
  | iff _ _ ih _ => exact ih
  | @chain _ _ operands hlength _ ih =>
      exact ih operands[0] (List.getElem_mem _)
  | atom hleft _ => exact hleft.levels_pos

/-!
More levels do no harm, so there are always enough for several derivations together.
-/

theorem DerivesTerm.succ {symbol : TermSymbol} {t : Term} (h : DerivesTerm n symbol ts t) :
    DerivesTerm (n + 1) symbol ts t := by
  induction h with
  | ofProduct _ ih => exact ofProduct ih
  | sum hop _ _ ihleft ihright => exact sum hop ihleft ihright
  | ofFactor _ ih => exact ofFactor ih
  | mul _ _ ihleft ihright => exact mul ihleft ihright
  | name => exact name
  | integer hvalue => exact integer hvalue
  | negative hvalue => exact negative hvalue
  | neg hdigits _ ih => exact neg hdigits ih
  | paren _ ih => exact paren ih

theorem DerivesTerm.mono {m : Nat} {symbol : TermSymbol} {t : Term}
    (h : DerivesTerm n symbol ts t) (hle : n ≤ m) : DerivesTerm m symbol ts t := by
  induction hle with
  | refl => exact h
  | step _ ih => exact ih.succ

theorem Derives.succ {symbol : FormulaSymbol} {t : Tree} (h : Derives n symbol ts t) :
    Derives (n + 1) symbol ts t := by
  induction h with
  | ofImplication _ ih => exact ofImplication ih
  | iff _ _ ihleft ihright => exact iff ihleft ihright
  | ofJunction _ ih => exact ofJunction ih
  | implies _ _ ihpremise ihconclusion => exact implies ihpremise ihconclusion
  | ofOperand _ ih => exact ofOperand ih
  | chain hlength _ ih => exact chain hlength ih
  | ofUnary _ ih => exact ofUnary ih
  | temporal _ _ ihleft ihright => exact temporal ihleft ihright
  | ofPrimary _ ih => exact ofPrimary ih
  | not _ ih => exact not ih
  | modal _ ih => exact modal ih
  | atom hleft hright => exact atom hleft.succ hright.succ
  | constant => exact constant
  | proposition => exact proposition
  | paren _ ih => exact paren ih

theorem Derives.mono {m : Nat} {symbol : FormulaSymbol} {t : Tree} (h : Derives n symbol ts t)
    (hle : n ≤ m) : Derives m symbol ts t := by
  induction hle with
  | refl => exact h
  | step _ ih => exact ih.succ

end Surface
end LinearTemporal

import LinearTemporal.Proofs.SurfaceGrammar

/-!
# Readers accept nothing else

Whatever a reader returns, the tokens between the two cursors are derived by the symbol
of its level, with the value that it returns.  A reader that returns is back at the depth
at which it started.
-/

namespace LinearTemporal
namespace Surface

theorem bind_eq_ok {ε α β : Type} {x : Except ε α} {f : α → Except ε β} {b : β} :
    x >>= f = .ok b ↔ ∃ a, x = .ok a ∧ f a = .ok b := by
  cases x with
  | error e => simp [bind, Except.bind]
  | ok a => simp [bind, Except.bind]

/-!
## Tokens between cursors

The tokens lead from one cursor to another at the same depth.
-/

namespace Cursor

inductive Reads : Cursor → List Token → Cursor → Prop where
  | refl (c : Cursor) : Reads c [] c
  | step {token : Token} {offset depth : Nat} {rest : List Located} {ts : List Token}
      {c : Cursor} : Reads ⟨rest, depth⟩ ts c →
      Reads ⟨⟨token, offset⟩ :: rest, depth⟩ (token :: ts) c

variable {c c' c'' : Cursor} {ts us : List Token}

theorem Reads.trans (h : Reads c ts c') (h' : Reads c' us c'') : Reads c (ts ++ us) c'' := by
  induction h with
  | refl => exact h'
  | step _ ih => exact Reads.step (ih h')

theorem Reads.token {token : Token} {offset depth : Nat} {rest : List Located} :
    Reads ⟨⟨token, offset⟩ :: rest, depth⟩ [token] ⟨rest, depth⟩ :=
  Reads.step (Reads.refl _)

theorem Reads.withDepth (h : Reads c ts c') (depth : Nat) :
    Reads ⟨c.rest, depth⟩ ts ⟨c'.rest, depth⟩ := by
  induction h with
  | refl => exact Reads.refl _
  | step _ ih => exact Reads.step ih

theorem Reads.depth_eq (h : Reads c ts c') : c'.depth = c.depth := by
  induction h with
  | refl => rfl
  | step _ ih => exact ih

theorem enter_eq_ok_iff :
    c.enter = .ok c' ↔ c.depth < nestingLimit ∧ c' = ⟨c.rest, c.depth + 1⟩ := by
  unfold enter
  split
  · simp_all [eq_comm]
  · rename_i hdepth
    simp [hdepth]

theorem exists_of_accept? {β : Type} {select : Token → Option β} {mark : β}
    (h : c.accept? select = some (mark, c')) :
    ∃ token, select token = some mark ∧ c.Reads [token] c' := by
  rcases c with ⟨rest, depth⟩
  cases rest with
  | nil => cases h
  | cons located rest =>
      unfold accept? at h
      split at h
      · rename_i hmark
        cases h
        exact ⟨located.token, hmark, Reads.token⟩
      · cases h

theorem reads_of_expect {token : Token} {expected : Expectation}
    (h : c.expect token expected = .ok c') : c.Reads [token] c' := by
  rcases c with ⟨rest, depth⟩
  unfold expect at h
  split at h
  · rename_i hpeek
    cases rest with
    | nil => cases hpeek
    | cons located rest =>
        cases hpeek
        cases h
        exact Reads.token
  · cases h

end Cursor

/-!
## Sound readers

A reader returns only what a relation allows for the tokens that it read.  What is read
as a chain and then joined has the relation of the chain.
-/

/-- The reader returns only what the relation allows for the tokens that it read. -/
def Sound {α : Type} (parser : Parser α) (R : List Token → α → Prop) : Prop :=
  ∀ ⦃c x c'⦄, parser c = .ok (x, c') → ∃ ts, c.Reads ts c' ∧ R ts x

namespace Sound

variable {α β γ : Type} {parser : Parser α} {R : List Token → α → Prop}

theorem mono {R' : List Token → α → Prop} (h : Sound parser R) (hR : ∀ {ts x}, R ts x → R' ts x) :
    Sound parser R' := by
  intro c x c' hx
  rcases h hx with ⟨ts, hts, hRx⟩
  exact ⟨ts, hts, hR hRx⟩

theorem nested (h : Sound parser R) : Sound (Parser.nested parser) R := by
  intro c x c' hx
  rcases bind_eq_ok.mp hx with ⟨entered, henter, hrest⟩
  rcases bind_eq_ok.mp hrest with ⟨⟨y, inner⟩, hy, hreturn⟩
  cases hreturn
  rcases Cursor.enter_eq_ok_iff.mp henter with ⟨_, rfl⟩
  rcases h hy with ⟨ts, hts, hRy⟩
  have hdepth : inner.depth - 1 = c.depth := by rw [hts.depth_eq]; rfl
  refine ⟨ts, ?_, hRy⟩
  show c.Reads ts ⟨inner.rest, inner.depth - 1⟩
  rw [hdepth]
  exact hts.withDepth c.depth

variable {separator : Token → Option β}

theorem tailWithin (h : Sound parser R) (rounds : Nat) :
    Sound (Parser.tailWithin separator parser rounds) (ChainTail separator R) := by
  induction rounds with
  | zero =>
      intro c more c' hmore
      cases hmore
      exact ⟨[], Cursor.Reads.refl c, ChainTail.nil⟩
  | succ rounds ih =>
      intro c more c' hmore
      unfold Parser.tailWithin at hmore
      split at hmore
      · cases hmore
        exact ⟨[], Cursor.Reads.refl c, ChainTail.nil⟩
      · rename_i mark afterMark haccept
        rcases bind_eq_ok.mp hmore with ⟨⟨x, afterOperand⟩, hx, hrest⟩
        rcases bind_eq_ok.mp hrest with ⟨⟨rest, afterRest⟩, hrest, hreturn⟩
        cases hreturn
        rcases Cursor.exists_of_accept? haccept with ⟨token, hmark, htoken⟩
        rcases h hx with ⟨us, hus, hRx⟩
        rcases ih hrest with ⟨vs, hvs, htail⟩
        exact ⟨token :: (us ++ vs), htoken.trans (hus.trans hvs), ChainTail.cons hmark hRx htail⟩

theorem chain (h : Sound parser R) (join : α → List (β × α) → γ) :
    Sound (fun c => do
      let ((first, more), c) ← Parser.chain separator parser c
      return (join first more, c)) (IsChain separator R join) := by
  intro c y c' hy
  rcases bind_eq_ok.mp hy with ⟨⟨⟨first, more⟩, afterChain⟩, hchain, hreturn⟩
  cases hreturn
  rcases bind_eq_ok.mp hchain with ⟨⟨x, afterFirst⟩, hx, hrest⟩
  rcases bind_eq_ok.mp hrest with ⟨⟨more', afterRest⟩, hmore, hreturn⟩
  cases hreturn
  rcases h hx with ⟨us, hus, hRx⟩
  rcases h.tailWithin _ hmore with ⟨vs, hvs, htail⟩
  exact ⟨us ++ vs, hus.trans hvs, us, vs, first, more, rfl, hRx, htail, rfl⟩

end Sound

/-!
## Terms

A literal is read if it fits, and a minus directly before it belongs to it.
-/

theorem readInteger_eq_ok_iff {negative : Bool} {digits : String} {offset : Nat} {value : Int64} :
    readInteger negative digits offset = .ok value ↔
      Denotes ((if negative then "-" else "") ++ digits) value := by
  unfold readInteger Denotes
  simp only
  split
  · rename_i hnone
    rw [hnone]
    exact ⟨nofun, nofun⟩
  · rename_i z hsome
    rw [hsome, Option.some.injEq]
    constructor
    · intro h
      split at h
      · rename_i hfits
        cases h
        exact (Int64.toInt_ofInt_of_le hfits.1 (Int.lt_add_one_of_le hfits.2)).symm
      · cases h
    · intro h
      rcases h with rfl
      rw [if_pos ⟨value.minValue_le_toInt, value.toInt_le⟩, Int64.ofInt_toInt]

theorem readInteger_false_iff {digits : String} {offset : Nat} {value : Int64} :
    readInteger false digits offset = .ok value ↔ Denotes digits value := by
  rw [readInteger_eq_ok_iff]
  simp

theorem readInteger_true_iff {digits : String} {offset : Nat} {value : Int64} :
    readInteger true digits offset = .ok value ↔ Denotes ("-" ++ digits) value := by
  rw [readInteger_eq_ok_iff]
  simp

variable {n : Nat}

theorem sound_factor {deeperTerm deeperFactor : Parser Term}
    (hterm : Sound deeperTerm (DerivesTerm n .term))
    (hfactor : Sound deeperFactor (DerivesTerm n .factor)) :
    Sound (Parser.factor deeperTerm deeperFactor) (DerivesTerm (n + 1) .factor) := by
  intro c t c' h
  rcases c with ⟨rest, depth⟩
  unfold Parser.factor at h
  split at h
  · rename_i name offset after hrest
    cases hrest
    cases h
    exact ⟨_, Cursor.Reads.token, DerivesTerm.name⟩
  · rename_i digits offset after hrest
    cases hrest
    rcases bind_eq_ok.mp h with ⟨value, hvalue, hreturn⟩
    cases hreturn
    exact ⟨_, Cursor.Reads.token, DerivesTerm.integer (readInteger_false_iff.mp hvalue)⟩
  · rename_i offset digits offset' after hrest
    cases hrest
    rcases bind_eq_ok.mp h with ⟨value, hvalue, hreturn⟩
    cases hreturn
    exact ⟨_, Cursor.Reads.step Cursor.Reads.token,
      DerivesTerm.negative (readInteger_true_iff.mp hvalue)⟩
  · rename_i offset after hdigits hrest
    cases hrest
    rcases bind_eq_ok.mp h with ⟨⟨body, afterBody⟩, hbody, hreturn⟩
    cases hreturn
    rcases hfactor.nested hbody with ⟨ts, hts, hderives⟩
    refine ⟨_, Cursor.Reads.step hts, DerivesTerm.neg ?_ hderives⟩
    rintro digits us rfl
    cases hts with
    | step _ => exact hdigits _ _ _ rfl
  · rename_i offset after hrest
    cases hrest
    rcases bind_eq_ok.mp h with ⟨⟨body, afterBody⟩, hbody, hrest⟩
    rcases bind_eq_ok.mp hrest with ⟨afterParen, hparen, hreturn⟩
    cases hreturn
    rcases hterm.nested hbody with ⟨ts, hts, hderives⟩
    exact ⟨_, Cursor.Reads.step (hts.trans (Cursor.reads_of_expect hparen)),
      DerivesTerm.paren hderives⟩
  · cases h

theorem sound_product {factor : Parser Term} (h : Sound factor (DerivesTerm n .factor)) :
    Sound (Parser.product factor) (DerivesTerm n .product) :=
  (h.chain Parser.foldArithmetic).mono derivesTerm_product_iff.mpr

theorem sound_sum {product : Parser Term} (h : Sound product (DerivesTerm n .product)) :
    Sound (Parser.sum product) (DerivesTerm n .term) :=
  (h.chain Parser.foldArithmetic).mono derivesTerm_term_iff.mpr

/-!
## Formulas

A comparison is a primary, and if there is none then nothing has been read.
-/

theorem Token.comparison?_eq_some_iff {token : Token} {op : Comparison} :
    token.comparison? = some op ↔ token = .comparison op := by
  unfold Token.comparison?
  split <;> simp_all

theorem Token.temporal?_eq_some_iff {token : Token} {op : TemporalOperator} :
    token.temporal? = some op ↔ token = .temporal op := by
  unfold Token.temporal?
  split <;> simp_all

theorem sound_atom {term : Parser Term} (h : Sound term (DerivesTerm n .term)) :
    Sound (Parser.atom? term) (fun ts result =>
      match result with
      | some tree => Derives n .primary ts tree
      | none => ts = []) := by
  intro c result c' hresult
  unfold Parser.atom? at hresult
  split at hresult
  · split at hresult
    · cases hresult
    · cases hresult
      exact ⟨[], Cursor.Reads.refl c, rfl⟩
  · rename_i left afterLeft hleft
    split at hresult
    · cases hresult
      exact ⟨[], Cursor.Reads.refl c, rfl⟩
    · rename_i op afterOp haccept
      rcases bind_eq_ok.mp hresult with ⟨⟨right, afterRight⟩, hright, hreturn⟩
      cases hreturn
      rcases Cursor.exists_of_accept? haccept with ⟨token, hop, htoken⟩
      rcases Token.comparison?_eq_some_iff.mp hop with rfl
      rcases h hleft with ⟨ts, hts, hderivesLeft⟩
      rcases h hright with ⟨us, hus, hderivesRight⟩
      exact ⟨_, hts.trans (htoken.trans hus), Derives.atom hderivesLeft hderivesRight⟩

theorem sound_primary {term : Parser Term} {deeperFormula : Parser Tree}
    (hterm : Sound term (DerivesTerm (n + 1) .term))
    (hformula : Sound deeperFormula (Derives n .formula)) :
    Sound (Parser.primary term deeperFormula) (Derives (n + 1) .primary) := by
  intro c t c' h
  rcases bind_eq_ok.mp h with ⟨⟨result, afterAtom⟩, hatom, hrest⟩
  rcases sound_atom hterm hatom with ⟨ts, hts, hresult⟩
  cases result with
  | some tree =>
      cases hrest
      exact ⟨ts, hts, hresult⟩
  | none =>
      cases hresult
      cases hts
      rcases c with ⟨tokens, depth⟩
      dsimp only at hrest
      split at hrest
      · cases hrest
        exact ⟨_, Cursor.Reads.token, Derives.constant⟩
      · cases hrest
        exact ⟨_, Cursor.Reads.token, Derives.proposition⟩
      · rcases bind_eq_ok.mp hrest with ⟨⟨body, afterBody⟩, hbody, hrest⟩
        rcases bind_eq_ok.mp hrest with ⟨afterParen, hparen, hreturn⟩
        cases hreturn
        rcases hformula.nested hbody with ⟨ts, hts, hderives⟩
        exact ⟨_, Cursor.Reads.step (hts.trans (Cursor.reads_of_expect hparen)),
          Derives.paren hderives⟩
      · cases hrest

theorem sound_unary {primary deeperUnary : Parser Tree}
    (hprimary : Sound primary (Derives (n + 1) .primary))
    (hunary : Sound deeperUnary (Derives n .unary)) :
    Sound (Parser.unary primary deeperUnary) (Derives (n + 1) .unary) := by
  intro c t c' h
  unfold Parser.unary at h
  split at h
  · rcases hprimary h with ⟨ts, hts, hderives⟩
    exact ⟨ts, hts, Derives.ofPrimary hderives⟩
  · rename_i build afterToken haccept
    rcases bind_eq_ok.mp h with ⟨⟨body, afterBody⟩, hbody, hreturn⟩
    cases hreturn
    rcases Cursor.exists_of_accept? haccept with ⟨token, hbuild, htoken⟩
    rcases hunary.nested hbody with ⟨ts, hts, hderives⟩
    refine ⟨token :: ts, htoken.trans hts, ?_⟩
    unfold Token.unary? at hbuild
    split at hbuild
    · cases hbuild
      exact Derives.not hderives
    · cases hbuild
      exact Derives.modal hderives
    · cases hbuild

theorem sound_binary {unary deeperBinary : Parser Tree}
    (hunary : Sound unary (Derives (n + 1) .unary))
    (hbinary : Sound deeperBinary (Derives n .binary)) :
    Sound (Parser.binary unary deeperBinary) (Derives (n + 1) .binary) := by
  intro c t c' h
  rcases bind_eq_ok.mp h with ⟨⟨left, afterLeft⟩, hleft, hrest⟩
  rcases hunary hleft with ⟨ts, hts, hderivesLeft⟩
  dsimp only at hrest
  split at hrest
  · cases hrest
    exact ⟨ts, hts, Derives.ofUnary hderivesLeft⟩
  · rename_i op afterOp haccept
    rcases bind_eq_ok.mp hrest with ⟨⟨right, afterRight⟩, hright, hreturn⟩
    cases hreturn
    rcases Cursor.exists_of_accept? haccept with ⟨token, hop, htoken⟩
    rcases Token.temporal?_eq_some_iff.mp hop with rfl
    rcases hbinary.nested hright with ⟨us, hus, hderivesRight⟩
    exact ⟨_, hts.trans (htoken.trans hus), Derives.temporal hderivesLeft hderivesRight⟩

theorem connected_eq (k : Connective) (operand : Parser Tree) (c : Cursor) :
    Parser.connected k operand c = (do
      let ((first, more), c) ← Parser.chain (Token.only (.connective k)) operand c
      return (junctionTree k first more, c)) := by
  unfold Parser.connected
  congr 1
  funext ⟨⟨first, more⟩, c⟩
  cases more <;> rfl

theorem sound_connected {k : Connective} {operand : Parser Tree}
    (h : Sound operand (Derives n (.operand k))) :
    Sound (Parser.connected k operand) (Derives n (.junction k)) := by
  intro c t c' ht
  rw [connected_eq] at ht
  exact (h.chain (junctionTree k)).mono derives_junction_iff.mpr ht

theorem sound_implicational {disjunction deeperImplication : Parser Tree}
    (hdisjunction : Sound disjunction (Derives (n + 1) (.junction .or)))
    (himplication : Sound deeperImplication (Derives n .implication)) :
    Sound (Parser.implicational disjunction deeperImplication)
      (Derives (n + 1) .implication) := by
  intro c t c' h
  rcases bind_eq_ok.mp h with ⟨⟨premise, afterPremise⟩, hpremise, hrest⟩
  rcases hdisjunction hpremise with ⟨ts, hts, hderivesPremise⟩
  dsimp only at hrest
  split at hrest
  · cases hrest
    exact ⟨ts, hts, Derives.ofJunction hderivesPremise⟩
  · rename_i afterOp haccept
    rcases bind_eq_ok.mp hrest with ⟨⟨conclusion, afterConclusion⟩, hconclusion, hreturn⟩
    cases hreturn
    rcases Cursor.exists_of_accept? haccept with ⟨token, hop, htoken⟩
    rcases Token.only_eq_some_iff.mp hop with rfl
    rcases himplication.nested hconclusion with ⟨us, hus, hderivesConclusion⟩
    exact ⟨_, hts.trans (htoken.trans hus), Derives.implies hderivesPremise hderivesConclusion⟩

theorem sound_equivalential {implication : Parser Tree}
    (h : Sound implication (Derives n .implication)) :
    Sound (Parser.equivalential implication) (Derives n .formula) :=
  (h.chain _).mono derives_formula_iff.mpr

/-!
## All levels

Readers that are sound one level deeper make sound readers, so all are.
-/

structure Readers.AreSound (readers : Readers) (n : Nat) : Prop where
  formula : Sound readers.formula (Derives n .formula)
  implication : Sound readers.implication (Derives n .implication)
  binary : Sound readers.binary (Derives n .binary)
  unary : Sound readers.unary (Derives n .unary)
  term : Sound readers.term (DerivesTerm n .term)
  factor : Sound readers.factor (DerivesTerm n .factor)

theorem Readers.areSound_above {deeper : Readers} (h : deeper.AreSound n) :
    deeper.above.AreSound (n + 1) := by
  have hfactor := sound_factor h.term h.factor
  have hterm := sound_sum (sound_product hfactor)
  have hunary := sound_unary (sound_primary hterm h.formula) h.unary
  have hbinary := sound_binary hunary h.binary
  have hdisjunction := sound_connected (k := .or) (sound_connected (k := .and) hbinary)
  have himplication := sound_implicational hdisjunction h.implication
  exact ⟨sound_equivalential himplication, himplication, hbinary, hunary, hterm, hfactor⟩

theorem Readers.areSound_levels (n : Nat) : (Readers.levels n).AreSound n := by
  induction n with
  | zero => exact ⟨nofun, nofun, nofun, nofun, nofun, nofun⟩
  | succ n ih => exact Readers.areSound_above ih

theorem Cursor.Reads.tokens_eq {tokens : List Located} {depth : Nat} {ts : List Token}
    {c : Cursor} (h : Cursor.Reads ⟨tokens, depth⟩ ts c) :
    tokens.map Located.token = ts ++ c.rest.map Located.token := by
  generalize hstart : Cursor.mk tokens depth = start at h
  induction h generalizing tokens with
  | refl => cases hstart; rfl
  | step _ ih =>
      cases hstart
      rw [List.map_cons, ih rfl, List.cons_append]

theorem generates_of_readTree {tokens : List Located} {t : Tree} (h : readTree tokens = .ok t) :
    Generates (tokens.map Located.token) t := by
  unfold readTree at h
  split at h
  · cases h
  · rcases bind_eq_ok.mp h with ⟨⟨tree, c⟩, htree, hend⟩
    dsimp only at hend
    split at hend
    · rename_i hrest
      cases hend
      rcases (Readers.areSound_levels _).formula htree with ⟨ts, hts, hderives⟩
      refine ⟨nestingLimit + 1, ?_⟩
      rw [hts.tokens_eq, hrest, List.map_nil, List.append_nil]
      exact hderives
    · cases hend

end Surface
end LinearTemporal

import LinearTemporal.Proofs.ParserSoundness

/-!
# Where readers fail

An error that a reader ends with was raised at one of the cursors that can be reached from its
own: by taking tokens one after the other, and opening a level at some of them.  A level that is
closed again leaves no trace, for a reader that returns is back at the depth at which it started.
So whatever is kept when a token is taken and when a level is opened holds where the error is
raised, through all tries of a term that were given up before.
-/

namespace LinearTemporal
namespace Surface

theorem bind_eq_error {ε α β : Type} {x : Except ε α} {f : α → Except ε β} {e : ε} :
    x >>= f = .error e ↔ x = .error e ∨ ∃ a, x = .ok a ∧ f a = .error e := by
  cases x with
  | error e => simp [bind, Except.bind]
  | ok a => simp [bind, Except.bind]

namespace Cursor

/-- Tokens lead from the first cursor to the second, and every level that is open there besides
those of the first was opened by one of them. -/
inductive Reaches : Cursor → Cursor → Prop where
  | refl (c : Cursor) : Reaches c c
  | take {located : Located} {rest : List Located} {depth : Nat} {c : Cursor} :
      Reaches ⟨rest, depth⟩ c → Reaches ⟨located :: rest, depth⟩ c
  | enter {located : Located} {rest : List Located} {depth : Nat} {c : Cursor} :
      depth < nestingLimit → Reaches ⟨rest, depth + 1⟩ c → Reaches ⟨located :: rest, depth⟩ c

/-- The errors that are raised at a cursor itself. -/
inductive Raises : Cursor → ParseError → Prop where
  | unexpected (c : Cursor) (expected : Expectation) : Raises c (c.unexpected expected)
  | overflow {digits : String} {offset depth : Nat} {rest : List Located} {e : ParseError} :
      readInteger false digits offset = .error e →
      Raises ⟨⟨.digits digits, offset⟩ :: rest, depth⟩ e
  | negativeOverflow {digits : String} {offset offset' depth : Nat} {rest : List Located}
      {e : ParseError} :
      readInteger true digits offset = .error e →
      Raises ⟨⟨.arithmetic .sub, offset⟩ :: ⟨.digits digits, offset'⟩ :: rest, depth⟩ e
  | tooDeep {located : Located} {rest : List Located} {depth : Nat} :
      nestingLimit ≤ depth → Raises ⟨located :: rest, depth⟩ (.tooDeep (offset ⟨rest, depth⟩))

def Fails (c : Cursor) (e : ParseError) : Prop :=
  ∃ c', c.Reaches c' ∧ c'.Raises e

variable {c c' c'' : Cursor} {e : ParseError}

/-!
What can be reached from a cursor within reach is within reach, so an error behind what
was read already is one of the whole.
-/

theorem Reaches.trans (h : c.Reaches c') (h' : c'.Reaches c'') : c.Reaches c'' := by
  induction h with
  | refl => exact h'
  | take _ ih => exact Reaches.take (ih h')
  | enter hdepth _ ih => exact Reaches.enter hdepth (ih h')

theorem Reads.reaches {ts : List Token} (h : c.Reads ts c') : c.Reaches c' := by
  induction h with
  | refl c => exact Reaches.refl c
  | step _ ih => exact Reaches.take ih

theorem Raises.fails (h : c.Raises e) : c.Fails e :=
  ⟨c, Reaches.refl c, h⟩

theorem Fails.after (h : c'.Fails e) (hreaches : c.Reaches c') : c.Fails e := by
  rcases h with ⟨place, hplace, hraises⟩
  exact ⟨place, hreaches.trans hplace, hraises⟩

theorem fails_of_expect {token : Token} {expected : Expectation}
    (h : c.expect token expected = .error e) : c.Fails e := by
  unfold expect at h
  split at h
  · cases h
  · cases h
    exact (Raises.unexpected c expected).fails

structure HasLevels (left : Nat) (c : Cursor) : Prop where
  within : c.depth ≤ nestingLimit
  exhausted : nestingLimit < c.depth + left

theorem HasLevels.after {left : Nat} {ts : List Token} (h : c.HasLevels left)
    (hts : c.Reads ts c') : c'.HasLevels left where
  within := hts.depth_eq ▸ h.within
  exhausted := hts.depth_eq ▸ h.exhausted

end Cursor

/-!
## Readers that point to their errors

A level that cannot be opened is raised at the token that would open it, and where no
level is left there is no cursor.
-/

/-- With the given number of levels left, every error of the reader is raised within reach. -/
def Blames {α : Type} (left : Nat) (parser : Parser α) : Prop :=
  ∀ ⦃c e⦄, c.HasLevels left → parser c = .error e → c.Fails e

namespace Blames

variable {α β γ : Type} {left : Nat} {parser : Parser α}

theorem zero (parser : Parser α) : Blames 0 parser := fun _ _ hlevels _ =>
  absurd hlevels.within (Nat.not_le_of_lt hlevels.exhausted)

theorem nested (h : Blames left parser) {located : Located} {rest : List Located} {depth : Nat}
    {e : ParseError} (hlevels : Cursor.HasLevels (left + 1) ⟨rest, depth⟩)
    (he : Parser.nested parser ⟨rest, depth⟩ = .error e) :
    Cursor.Fails ⟨located :: rest, depth⟩ e := by
  rcases bind_eq_error.mp he with henter | ⟨entered, henter, hrest⟩
  · unfold Cursor.enter at henter
    split at henter
    · cases henter
    · rename_i hfull
      cases henter
      exact (Cursor.Raises.tooDeep (Nat.le_of_not_lt hfull)).fails
  · rcases Cursor.enter_eq_ok_iff.mp henter with ⟨hroom, rfl⟩
    have hdeeper : Cursor.HasLevels left ⟨rest, depth + 1⟩ := by
      refine ⟨hroom, ?_⟩
      rw [Nat.add_right_comm]
      exact hlevels.exhausted
    rcases bind_eq_error.mp hrest with hinner | ⟨⟨x, inner⟩, _, hreturn⟩
    · rcases h hdeeper hinner with ⟨place, hplace, hraises⟩
      exact ⟨place, Cursor.Reaches.enter hroom hplace, hraises⟩
    · cases hreturn

variable {R : List Token → α → Prop} {separator : Token → Option β}

theorem tailWithin (hsound : Sound parser R) (h : Blames left parser) (rounds : Nat) :
    Blames left (Parser.tailWithin separator parser rounds) := by
  induction rounds with
  | zero => exact nofun
  | succ rounds ih =>
      intro c e hlevels he
      unfold Parser.tailWithin at he
      split at he
      · cases he
      · rename_i mark afterMark haccept
        rcases Cursor.exists_of_accept? haccept with ⟨token, _, htoken⟩
        rcases bind_eq_error.mp he with hoperand | ⟨⟨x, afterOperand⟩, hx, hrest⟩
        · exact (h (hlevels.after htoken) hoperand).after htoken.reaches
        · rcases hsound hx with ⟨ts, hts, _⟩
          have hread := htoken.trans hts
          rcases bind_eq_error.mp hrest with hmore | ⟨_, _, hreturn⟩
          · exact (ih (hlevels.after hread) hmore).after hread.reaches
          · cases hreturn

theorem chain (hsound : Sound parser R) (h : Blames left parser) (join : α → List (β × α) → γ) :
    Blames left (fun c => do
      let ((first, more), c) ← Parser.chain separator parser c
      return (join first more, c)) := by
  intro c e hlevels he
  rcases bind_eq_error.mp he with hchain | ⟨_, _, hreturn⟩
  · rcases bind_eq_error.mp hchain with hfirst | ⟨⟨x, afterFirst⟩, hx, hrest⟩
    · exact h hlevels hfirst
    · rcases hsound hx with ⟨ts, hts, _⟩
      rcases bind_eq_error.mp hrest with hmore | ⟨_, _, hreturn⟩
      · exact (h.tailWithin hsound _ (hlevels.after hts) hmore).after hts.reaches
      · cases hreturn
  · cases hreturn

end Blames

/-!
## Terms

An error comes from the token that is not expected, or from a literal that does not fit.
-/

variable {n : Nat}

theorem blames_factor {deeperTerm deeperFactor : Parser Term}
    (hsound : Sound deeperTerm (DerivesTerm n .term)) (hterm : Blames n deeperTerm)
    (hfactor : Blames n deeperFactor) :
    Blames (n + 1) (Parser.factor deeperTerm deeperFactor) := by
  intro c e hlevels he
  rcases c with ⟨rest, depth⟩
  unfold Parser.factor at he
  split at he
  · cases he
  · rename_i digits offset after hrest
    cases hrest
    rcases bind_eq_error.mp he with hinteger | ⟨_, _, hreturn⟩
    · exact (Cursor.Raises.overflow hinteger).fails
    · cases hreturn
  · rename_i offset digits offset' after hrest
    cases hrest
    rcases bind_eq_error.mp he with hinteger | ⟨_, _, hreturn⟩
    · exact (Cursor.Raises.negativeOverflow hinteger).fails
    · cases hreturn
  · rename_i offset after _ hrest
    cases hrest
    rcases bind_eq_error.mp he with hbody | ⟨_, _, hreturn⟩
    · exact hfactor.nested ⟨hlevels.within, hlevels.exhausted⟩ hbody
    · cases hreturn
  · rename_i offset after hrest
    cases hrest
    rcases bind_eq_error.mp he with hbody | ⟨⟨body, afterBody⟩, hbody, hrest⟩
    · exact hterm.nested ⟨hlevels.within, hlevels.exhausted⟩ hbody
    · rcases hsound.nested hbody with ⟨ts, hts, _⟩
      rcases bind_eq_error.mp hrest with hparen | ⟨_, _, hreturn⟩
      · exact (Cursor.fails_of_expect hparen).after (Cursor.Reads.step hts).reaches
      · cases hreturn
  · cases he
    exact (Cursor.Raises.unexpected _ .term).fails

theorem blames_product {factor : Parser Term} (hsound : Sound factor (DerivesTerm n .factor))
    (h : Blames n factor) : Blames n (Parser.product factor) :=
  h.chain hsound Parser.foldArithmetic

theorem blames_sum {product : Parser Term} (hsound : Sound product (DerivesTerm n .product))
    (h : Blames n product) : Blames n (Parser.sum product) :=
  h.chain hsound Parser.foldArithmetic

/-!
## Formulas

What is tried and given up leaves no error.  After an operator the reader goes one level
deeper.
-/

theorem blames_atom {term : Parser Term} (hsound : Sound term (DerivesTerm n .term))
    (h : Blames n term) : Blames n (Parser.atom? term) := by
  intro c e hlevels he
  unfold Parser.atom? at he
  split at he
  · rename_i raised hraised
    split at he
    · cases he
      exact h hlevels hraised
    · cases he
  · rename_i left afterLeft hleft
    split at he
    · cases he
    · rename_i op afterOp haccept
      rcases hsound hleft with ⟨ts, hts, _⟩
      rcases Cursor.exists_of_accept? haccept with ⟨token, _, htoken⟩
      have hread := hts.trans htoken
      rcases bind_eq_error.mp he with hright | ⟨_, _, hreturn⟩
      · exact (h (hlevels.after hread) hright).after hread.reaches
      · cases hreturn

theorem blames_primary {term : Parser Term} {deeperFormula : Parser Tree}
    (hsoundTerm : Sound term (DerivesTerm (n + 1) .term))
    (hsound : Sound deeperFormula (Derives n .formula)) (hterm : Blames (n + 1) term)
    (hformula : Blames n deeperFormula) : Blames (n + 1) (Parser.primary term deeperFormula) := by
  intro c e hlevels he
  rcases bind_eq_error.mp he with hatom | ⟨⟨result, afterAtom⟩, hatom, hrest⟩
  · exact blames_atom hsoundTerm hterm hlevels hatom
  · rcases sound_atom hsoundTerm hatom with ⟨ts, hts, hresult⟩
    cases result with
    | some tree => cases hrest
    | none =>
        cases hresult
        cases hts
        rcases c with ⟨tokens, depth⟩
        dsimp only at hrest
        split at hrest
        · cases hrest
        · cases hrest
        · rcases bind_eq_error.mp hrest with hbody | ⟨⟨body, afterBody⟩, hbody, hrest⟩
          · exact hformula.nested ⟨hlevels.within, hlevels.exhausted⟩ hbody
          · rcases hsound.nested hbody with ⟨ts, hts, _⟩
            rcases bind_eq_error.mp hrest with hparen | ⟨_, _, hreturn⟩
            · exact (Cursor.fails_of_expect hparen).after (Cursor.Reads.step hts).reaches
            · cases hreturn
        · cases hrest
          exact (Cursor.Raises.unexpected _ .formula).fails

theorem fails_of_nested {α β : Type} {parser : Parser α} (h : Blames n parser) {c afterOp : Cursor}
    {select : Token → Option β} {op : β} {e : ParseError} (hlevels : c.HasLevels (n + 1))
    (haccept : c.accept? select = some (op, afterOp))
    (he : Parser.nested parser afterOp = .error e) : c.Fails e := by
  rcases Cursor.exists_of_accept? haccept with ⟨token, _, htoken⟩
  have hafter := hlevels.after htoken
  cases htoken with
  | step hread =>
      cases hread
      exact h.nested hafter he

theorem blames_unary {primary deeperUnary : Parser Tree} (hprimary : Blames (n + 1) primary)
    (hunary : Blames n deeperUnary) : Blames (n + 1) (Parser.unary primary deeperUnary) := by
  intro c e hlevels he
  unfold Parser.unary at he
  split at he
  · exact hprimary hlevels he
  · rename_i build afterOp haccept
    rcases bind_eq_error.mp he with hbody | ⟨_, _, hreturn⟩
    · exact fails_of_nested hunary hlevels haccept hbody
    · cases hreturn

theorem blames_binary {unary deeperBinary : Parser Tree}
    (hsound : Sound unary (Derives (n + 1) .unary)) (hunary : Blames (n + 1) unary)
    (hbinary : Blames n deeperBinary) : Blames (n + 1) (Parser.binary unary deeperBinary) := by
  intro c e hlevels he
  rcases bind_eq_error.mp he with hleft | ⟨⟨left, afterLeft⟩, hleft, hrest⟩
  · exact hunary hlevels hleft
  · rcases hsound hleft with ⟨ts, hts, _⟩
    dsimp only at hrest
    split at hrest
    · cases hrest
    · rename_i op afterOp haccept
      rcases bind_eq_error.mp hrest with hright | ⟨_, _, hreturn⟩
      · exact (fails_of_nested hbinary (hlevels.after hts) haccept hright).after hts.reaches
      · cases hreturn

theorem blames_connected {k : Connective} {operand : Parser Tree}
    (hsound : Sound operand (Derives n (.operand k))) (h : Blames n operand) :
    Blames n (Parser.connected k operand) := by
  intro c e hlevels he
  rw [connected_eq] at he
  exact h.chain hsound (junctionTree k) hlevels he

theorem blames_implicational {disjunction deeperImplication : Parser Tree}
    (hsound : Sound disjunction (Derives (n + 1) (.junction .or)))
    (hdisjunction : Blames (n + 1) disjunction) (himplication : Blames n deeperImplication) :
    Blames (n + 1) (Parser.implicational disjunction deeperImplication) := by
  intro c e hlevels he
  rcases bind_eq_error.mp he with hpremise | ⟨⟨premise, afterPremise⟩, hpremise, hrest⟩
  · exact hdisjunction hlevels hpremise
  · rcases hsound hpremise with ⟨ts, hts, _⟩
    dsimp only at hrest
    split at hrest
    · cases hrest
    · rename_i afterOp haccept
      rcases bind_eq_error.mp hrest with hconclusion | ⟨_, _, hreturn⟩
      · exact (fails_of_nested himplication (hlevels.after hts) haccept hconclusion).after
          hts.reaches
      · cases hreturn

theorem blames_equivalential {implication : Parser Tree}
    (hsound : Sound implication (Derives n .implication)) (h : Blames n implication) :
    Blames n (Parser.equivalential implication) :=
  h.chain hsound _

/-!
## All levels

Readers one level deeper point to their errors, and so do those made from them.
-/

structure Readers.Blame (readers : Readers) (n : Nat) : Prop where
  formula : Blames n readers.formula
  implication : Blames n readers.implication
  binary : Blames n readers.binary
  unary : Blames n readers.unary
  term : Blames n readers.term
  factor : Blames n readers.factor

theorem Readers.blame_above {deeper : Readers} (hsound : deeper.AreSound n)
    (h : deeper.Blame n) : deeper.above.Blame (n + 1) := by
  -- What is read before an error leads to where it is raised, so the readers have to be sound too.
  have habove := Readers.areSound_above hsound
  have hsoundProduct := sound_product habove.factor
  have hsoundConjunction := sound_connected (k := .and) habove.binary
  have hsoundDisjunction := sound_connected (k := .or) hsoundConjunction
  have hfactor := blames_factor hsound.term h.term h.factor
  have hterm := blames_sum hsoundProduct (blames_product habove.factor hfactor)
  have hunary := blames_unary (blames_primary habove.term hsound.formula hterm h.formula) h.unary
  have hbinary := blames_binary habove.unary hunary h.binary
  have hdisjunction := blames_connected (k := .or) hsoundConjunction
    (blames_connected (k := .and) habove.binary hbinary)
  have himplication := blames_implicational hsoundDisjunction hdisjunction h.implication
  exact ⟨blames_equivalential habove.implication himplication, himplication, hbinary, hunary,
    hterm, hfactor⟩

theorem Readers.blame_levels (n : Nat) : (Readers.levels n).Blame n := by
  induction n with
  | zero =>
      exact ⟨Blames.zero _, Blames.zero _, Blames.zero _, Blames.zero _, Blames.zero _,
        Blames.zero _⟩
  | succ n ih => exact Readers.blame_above (Readers.areSound_levels n) ih

/-- An error of reading tokens is raised within reach of their start. -/
theorem fails_of_readTree {tokens : List Located} {e : ParseError} (hne : tokens ≠ [])
    (h : readTree tokens = .error e) : (Cursor.start tokens).Fails e := by
  unfold readTree at h
  rw [if_neg hne] at h
  rcases bind_eq_error.mp h with htree | ⟨⟨tree, c⟩, htree, hend⟩
  · refine (Readers.blame_levels _).formula ⟨Nat.zero_le _, ?_⟩ htree
    exact Nat.lt_of_lt_of_le (Nat.lt_succ_self _) (Nat.le_add_left _ _)
  · rcases (Readers.areSound_levels _).formula htree with ⟨ts, hts, _⟩
    dsimp only at hend
    split at hend
    · cases hend
    · cases hend
      exact (Cursor.Raises.unexpected c .operatorOrEnd).fails.after hts.reaches

end Surface
end LinearTemporal

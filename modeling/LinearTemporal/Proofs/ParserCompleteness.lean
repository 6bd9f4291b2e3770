import LinearTemporal.Proofs.ParserSoundness

/-!
# Readers accept all of the language

Every list of tokens that the grammar derives is read with the value of the derivation,
unless levels run out before the derivation does.

A reader takes as much as it can, so it ends where a derivation ends only if the next
token cannot continue what it reads.  Whether it can depends on how tightly the token
binds: the reader of a level stops before every token that binds more loosely.

An opening parenthesis is tried as a term before it is read as a formula.  On the tokens
of a formula the reader of terms fails without being final, or it stops at an operator
that is no part of a term, so that no closing parenthesis and no comparison is found where
the term would need one.
-/

namespace LinearTemporal
namespace Surface

/-!
## Where readers stop

A reader of a level stops before a token that binds more loosely, and at the end.  So
where one list of tokens is read after another, the first reader leaves the second list
alone.
-/

/-- How loosely a token binds its operands; a token that is no binary operator ends
everything that is open before it. -/
@[simp]
def Token.binding : Token → Nat
  | arithmetic .mul => 1
  | arithmetic _ => 2
  | comparison _ => 3
  | temporal _ => 4
  | connective .and => 5
  | connective .or => 6
  | implies => 7
  | iff => 8
  | _ => 9

namespace Cursor

/-- The next token binds more loosely than the level, or there is none. -/
def Stops (level : Nat) (c : Cursor) : Prop :=
  ∀ token, c.peek? = some token → level < token.binding

variable {c c' c'' : Cursor} {ts us : List Token} {token : Token} {level : Nat}

theorem Stops.mono {tighter : Nat} (h : c.Stops level) (hle : tighter ≤ level) :
    c.Stops tighter :=
  fun token htoken => Nat.lt_of_le_of_lt hle (h token htoken)

theorem Reads.peek?_eq (h : c.Reads (token :: ts) c') : c.peek? = some token := by
  cases h with
  | step _ => rfl

theorem Reads.stops (h : c.Reads (token :: ts) c') (hlevel : level < token.binding) :
    c.Stops level := by
  intro token' htoken'
  rw [h.peek?_eq] at htoken'
  cases htoken'
  exact hlevel

theorem Reads.exists_of_append (h : c.Reads (ts ++ us) c'') :
    ∃ c', c.Reads ts c' ∧ c'.Reads us c'' := by
  induction ts generalizing c with
  | nil => exact ⟨c, Reads.refl c, h⟩
  | cons token ts ih =>
      cases h with
      | step h =>
          rcases ih h with ⟨c', hts, hus⟩
          exact ⟨c', Reads.step hts, hus⟩

theorem Reads.length_le (h : c.Reads ts c') : ts.length ≤ c.rest.length := by
  induction h with
  | refl => exact Nat.zero_le _
  | step _ ih => exact Nat.succ_le_succ ih

variable {β : Type} (select : Token → Option β) {mark : β}

theorem accept?_of_reads (h : c.Reads (token :: ts) c') (hmark : select token = some mark) :
    ∃ c'', c.accept? select = some (mark, c'') ∧ c.Reads [token] c'' ∧ c''.Reads ts c' := by
  have happend : c.Reads ([token] ++ ts) c' := h
  rcases happend.exists_of_append with ⟨c'', htoken, hts⟩
  refine ⟨c'', ?_, htoken, hts⟩
  unfold accept?
  rw [htoken.peek?_eq, Option.bind_some, hmark]
  cases htoken with
  | step hrest =>
      cases hrest
      rfl

theorem accept?_eq_none_of_reads (h : c.Reads (token :: ts) c') (hmark : select token = none) :
    c.accept? select = none := by
  unfold accept?
  rw [h.peek?_eq, Option.bind_some, hmark]

theorem accept?_eq_none (h : c.Stops level)
    (hselect : ∀ {token mark}, select token = some mark → token.binding ≤ level) :
    c.accept? select = none := by
  cases haccept : c.accept? select with
  | none => rfl
  | some entry =>
      rcases exists_of_accept? haccept with ⟨token, hmark, htoken⟩
      exact absurd (h token htoken.peek?_eq) (Nat.not_lt.mpr (hselect hmark))

theorem expect_of_reads {expected : Expectation} (h : c.Reads [token] c') :
    c.expect token expected = .ok c' := by
  unfold expect
  rw [if_pos h.peek?_eq]
  cases h with
  | step h =>
      cases h
      rfl

theorem expect_eq_error {expected : Expectation} (h : c.peek? ≠ some token) :
    c.expect token expected = .error (c.unexpected expected) := by
  unfold expect
  rw [if_neg h]

end Cursor

/-!
## Complete readers

Whatever a relation allows for the next tokens is read, if the reader stops after them
and there is room for the levels that the derivation takes.  With less room it may be
that levels run out.
-/

/-- The value is returned, at the given cursor, unless there is less room than is needed;
then there may not be levels enough. -/
def Yields {α : Type} (room needed : Nat) (outcome : Except ParseError (α × Cursor)) (x : α)
    (c : Cursor) : Prop :=
  outcome = .ok (x, c) ∨ room < needed ∧ ∃ offset, outcome = .error (.tooDeep offset)

def Cursor.HasRoom (c : Cursor) (room : Nat) : Prop :=
  c.depth + room = nestingLimit + 1

/-- Whatever the relation allows for the next tokens is read, if the reader stops after
them. -/
def Complete {α : Type} (parser : Parser α) (level room : Nat)
    (R : Nat → List Token → α → Prop) : Prop :=
  ∀ ⦃n ts x c c'⦄, R n ts x → c.Reads ts c' → c.HasRoom room → c'.Stops level →
    Yields room n (parser c) x c'

section

variable {α β γ : Type} {room n : Nat} {c c' c'' : Cursor}

theorem Cursor.Reads.hasRoom {ts : List Token} (h : c.Reads ts c') (hroom : c.HasRoom room) :
    c'.HasRoom room := by
  unfold Cursor.HasRoom
  rw [h.depth_eq]
  exact hroom

theorem Yields.bind {outcome : Except ParseError (α × Cursor)} {x : α} {y : β}
    {f : α × Cursor → Except ParseError (β × Cursor)} (h : Yields room n outcome x c)
    (hf : Yields room n (f (x, c)) y c') : Yields room n (outcome >>= f) y c' := by
  rcases h with rfl | ⟨hlt, offset, rfl⟩
  · exact hf
  · exact Or.inr ⟨hlt, offset, rfl⟩

theorem nested_eq (parser : Parser α) (h : c.depth < nestingLimit) :
    Parser.nested parser c = (do
      let (x, inner) ← parser ⟨c.rest, c.depth + 1⟩
      return (x, inner.leave)) := by
  unfold Parser.nested
  rw [Cursor.enter_eq_ok_iff.mpr ⟨h, rfl⟩]
  rfl

theorem nested_eq_error (parser : Parser α) (h : ¬ c.depth < nestingLimit) :
    Parser.nested parser c = .error (.tooDeep c.offset) := by
  unfold Parser.nested Cursor.enter
  rw [if_neg h]
  rfl

theorem Cursor.HasRoom.deeper {rest : List Located} (h : c.HasRoom (room + 1)) :
    Cursor.HasRoom ⟨rest, c.depth + 1⟩ room := by
  unfold Cursor.HasRoom at h ⊢
  rw [← h, Nat.add_right_comm, Nat.add_assoc]

theorem Cursor.Reads.leave_deeper {ts : List Token} (h : c.Reads ts c') :
    Cursor.leave ⟨c'.rest, c.depth + 1⟩ = c' := by
  show Cursor.mk c'.rest c.depth = c'
  rw [← h.depth_eq]

theorem Cursor.HasRoom.depth_lt_iff (h : c.HasRoom (room + 1)) :
    c.depth < nestingLimit ↔ 0 < room := by
  unfold Cursor.HasRoom at h
  omega

/-!
## Chains without a separator

An operand ends where the tail begins: there is a separator next, or the tail is empty.
-/

section

variable {separator : Token → Option β} {operand : Parser α}

theorem tailWithin_eq_nil (h : c.accept? separator = none) (rounds : Nat) :
    Parser.tailWithin separator operand rounds c = .ok ([], c) := by
  cases rounds with
  | zero => rfl
  | succ rounds =>
      unfold Parser.tailWithin
      rw [h]

theorem chain_eq_single {x : α} (hx : operand c = .ok (x, c'))
    (h : c'.accept? separator = none) :
    Parser.chain separator operand c = .ok ((x, []), c') := by
  unfold Parser.chain
  rw [hx]
  show Parser.tailWithin separator operand c'.rest.length c' >>= _ = _
  rw [tailWithin_eq_nil h]
  rfl

theorem chain_eq_error {e : ParseError} (h : operand c = .error e) :
    Parser.chain separator operand c = .error e := by
  unfold Parser.chain
  rw [h]
  rfl

end

namespace Complete

variable {parser : Parser α} {level : Nat} {R : Nat → List Token → α → Prop}

theorem nested (h : Complete parser level room R) {ts : List Token} {x : α} (hR : R n ts x)
    (hpos : 0 < n) (hts : c.Reads ts c') (hroom : c.HasRoom (room + 1))
    (hstops : c'.Stops level) :
    Yields (room + 1) (n + 1) (Parser.nested parser c) x c' := by
  by_cases hdepth : c.depth < nestingLimit
  · rw [nested_eq parser hdepth]
    rcases h hR (hts.withDepth (c.depth + 1)) hroom.deeper hstops with hok | ⟨hlt, offset, herror⟩
    · left
      rw [hok, ← hts.leave_deeper]
      rfl
    · right
      refine ⟨Nat.succ_lt_succ hlt, offset, ?_⟩
      rw [herror]
      rfl
  · right
    have herror := nested_eq_error parser hdepth
    rw [hroom.depth_lt_iff] at hdepth
    exact ⟨by omega, c.offset, herror⟩

variable {separator : Token → Option β}

theorem stops_of_tail {S : List Token → α → Prop}
    (hseparator : ∀ {token mark}, separator token = some mark → token.binding = level + 1)
    {vs : List Token} {more : List (β × α)} (hmore : ChainTail separator S vs more)
    (hvs : c.Reads vs c') (hstops : c'.Stops (level + 1)) : c.Stops level := by
  cases hmore with
  | nil =>
      cases hvs
      exact hstops.mono (Nat.le_succ level)
  | cons hmark _ _ =>
      apply hvs.stops
      rw [hseparator hmark]
      exact Nat.lt_succ_self level

theorem tailWithin (h : Complete parser level room R)
    (hseparator : ∀ {token mark}, separator token = some mark → token.binding = level + 1)
    {vs : List Token} {more : List (β × α)} (hmore : ChainTail separator (R n) vs more)
    (hvs : c.Reads vs c') (hroom : c.HasRoom room) (hstops : c'.Stops (level + 1))
    {rounds : Nat} (hrounds : vs.length ≤ rounds) :
    Yields room n (Parser.tailWithin separator parser rounds c) more c' := by
  induction hmore generalizing c rounds with
  | nil =>
      cases hvs
      have hnone := Cursor.accept?_eq_none _ hstops fun hmark => Nat.le_of_eq (hseparator hmark)
      exact Or.inl (tailWithin_eq_nil hnone rounds)
  | @cons token mark us x vs more hmark hx hmore ih =>
      cases rounds with
      | zero => cases hrounds
      | succ rounds =>
          rcases Cursor.accept?_of_reads separator hvs hmark with
            ⟨afterMark, haccept, htoken, hrest⟩
          rcases hrest.exists_of_append with ⟨afterOperand, hus, hvs'⟩
          have hroomMark := htoken.hasRoom hroom
          have hlength : vs.length ≤ rounds := by
            simp only [List.length_cons, List.length_append] at hrounds
            omega
          unfold Parser.tailWithin
          rw [haccept]
          refine (h hx hus hroomMark (stops_of_tail hseparator hmore hvs' hstops)).bind ?_
          exact (ih hvs' (hus.hasRoom hroomMark) hlength).bind (Or.inl rfl)

theorem chain (h : Complete parser level room R)
    (hseparator : ∀ {token mark}, separator token = some mark → token.binding = level + 1)
    (join : α → List (β × α) → γ) :
    Complete (fun c => do
      let ((first, more), c) ← Parser.chain separator parser c
      return (join first more, c)) (level + 1) room (fun n => IsChain separator (R n) join) := by
  intro n ts y c c' hy hts hroom hstops
  rcases hy with ⟨us, vs, first, more, rfl, hfirst, hmore, rfl⟩
  rcases hts.exists_of_append with ⟨afterFirst, hus, hvs⟩
  have hyields : Yields room n (Parser.chain separator parser c) (first, more) c' := by
    refine (h hfirst hus hroom (stops_of_tail hseparator hmore hvs hstops)).bind ?_
    exact (h.tailWithin hseparator hmore hvs (hus.hasRoom hroom) hstops hvs.length_le).bind
      (Or.inl rfl)
  exact hyields.bind (Or.inl rfl)

theorem iff {R' : Nat → List Token → α → Prop} (h : Complete parser level room R)
    (hR : ∀ {n ts x}, R' n ts x ↔ R n ts x) : Complete parser level room R' :=
  fun _ _ _ _ _ hx => h (hR.mp hx)

end Complete

end

/-!
## Terms

A term starts with a token that is neither a prefix operator of formulas nor missing.
-/

variable {room n : Nat} {ts : List Token}

theorem DerivesTerm.exists_first {symbol : TermSymbol} {t : Term}
    (h : DerivesTerm n symbol ts t) :
    ∃ token us, ts = token :: us ∧ token.unary? = none := by
  induction h with
  | name | integer | negative | neg | paren => exact ⟨_, _, rfl, rfl⟩
  | ofProduct _ ih | ofFactor _ ih => exact ih
  | sum _ _ _ ih _ | mul _ _ ih _ =>
      rcases ih with ⟨token, us, rfl, htoken⟩
      exact ⟨token, _, rfl, htoken⟩

theorem complete_factor {deeperTerm deeperFactor : Parser Term}
    (hterm : Complete deeperTerm 2 room (DerivesTerm · .term))
    (hfactor : Complete deeperFactor 0 room (DerivesTerm · .factor)) :
    Complete (Parser.factor deeperTerm deeperFactor) 0 (room + 1) (DerivesTerm · .factor) := by
  intro n ts t c c' ht hts hroom hstops
  cases ht with
  | name =>
      cases hts with
      | step hts =>
          cases hts
          exact Or.inl rfl
  | integer hvalue =>
      cases hts with
      | @step _ offset _ _ _ _ hts =>
          cases hts
          have hread := (@readInteger_false_iff _ offset _).mpr hvalue
          left
          unfold Parser.factor
          dsimp only
          rw [hread]
          rfl
  | negative hvalue =>
      cases hts with
      | @step _ offset _ _ _ _ hts =>
          cases hts with
          | step hts =>
              cases hts
              have hread := (@readInteger_true_iff _ offset _).mpr hvalue
              left
              unfold Parser.factor
              dsimp only
              rw [hread]
              rfl
  | @neg n us body hdigits hbody =>
      cases hts with
      | step hts =>
          -- The reader looks at the token after the minus, so it has to be known first.
          have hyields := (hfactor.nested hbody hbody.levels_pos hts hroom hstops).bind
            (f := fun result => .ok (Term.neg result.1, result.2)) (Or.inl rfl)
          rcases hbody.exists_first with ⟨token, vs, rfl, _⟩
          cases hts with
          | step hts =>
              cases token with
              | digits digits => exact absurd rfl (hdigits digits vs)
              | _ => exact hyields
  | @paren n us t ht =>
      cases hts with
      | step hts =>
          rcases hts.exists_of_append with ⟨afterBody, hus, hparen⟩
          have hbody := hterm.nested ht ht.levels_pos hus hroom (hparen.stops (by decide))
          have hend : afterBody.expect .closeParen .closeParen = .ok c' :=
            Cursor.expect_of_reads hparen
          refine hbody.bind (Or.inl ?_)
          show afterBody.expect .closeParen .closeParen >>= _ = _
          rw [hend]
          rfl

theorem Token.binding_of_multiplicative {token : Token} {op : Arithmetic}
    (h : token.multiplicative? = some op) : token.binding = 1 := by
  rcases Token.multiplicative?_eq_some_iff.mp h with ⟨rfl, _⟩
  rfl

theorem complete_product {factor : Parser Term}
    (h : Complete factor 0 room (DerivesTerm · .factor)) :
    Complete (Parser.product factor) 1 room (DerivesTerm · .product) :=
  (h.chain Token.binding_of_multiplicative Parser.foldArithmetic).iff derivesTerm_product_iff

theorem Token.binding_of_additive {token : Token} {op : Arithmetic}
    (h : token.additive? = some op) : token.binding = 2 := by
  rcases Token.additive?_eq_some_iff.mp h with ⟨rfl, hop⟩
  cases op with
  | add | sub => rfl
  | mul => exact absurd rfl hop

theorem complete_sum {product : Parser Term}
    (h : Complete product 1 room (DerivesTerm · .product)) :
    Complete (Parser.sum product) 2 room (DerivesTerm · .term) :=
  (h.chain Token.binding_of_additive Parser.foldArithmetic).iff derivesTerm_term_iff

theorem Complete.of_levels_pos {α : Type} {level : Nat} {R : Nat → List Token → α → Prop}
    (hR : ∀ {n ts x}, R n ts x → 0 < n) :
    Complete (fun c => .error (.tooDeep c.offset)) level 0 R := by
  intro n ts x c c' hx _ _ _
  exact Or.inr ⟨hR hx, c.offset, rfl⟩

theorem complete_terms (room : Nat) :
    Complete (Readers.levels room).term 2 room (DerivesTerm · .term) ∧
      Complete (Readers.levels room).factor 0 room (DerivesTerm · .factor) := by
  induction room with
  | zero => exact ⟨Complete.of_levels_pos (·.levels_pos), Complete.of_levels_pos (·.levels_pos)⟩
  | succ room ih =>
      have hfactor := complete_factor ih.1 ih.2
      exact ⟨complete_sum (complete_product hfactor), hfactor⟩

/-!
## Formulas tried as terms

No term starts with a prefix operator.  After what is in parentheses, the closing one is
found only if all of it is a term, and the tokens of a term may go on with an operator
of formulas.
-/

/-- Trying a term on tokens that end at the cursor: no term can be read, or all of the
tokens are one, or the term ends before an operator that binds more loosely than the
level. -/
inductive Tries (level room needed : Nat) (c : Cursor) :
    Except ParseError (Term × Cursor) → Prop where
  | fails {e} : e.isFinal = false → Tries level room needed c (.error e)
  | tooDeep {offset} : room < needed → Tries level room needed c (.error (.tooDeep offset))
  | all {t} : Tries level room needed c (.ok (t, c))
  | before {t c' token} : c'.peek? = some token → level < token.binding → token.binding ≤ 8 →
      Tries level room needed c (.ok (t, c'))

variable {c c' : Cursor} {level : Nat}

theorem Tries.of_yields {outcome : Except ParseError (Term × Cursor)} {t : Term}
    (h : Yields room n outcome t c) : Tries level room n c outcome := by
  rcases h with rfl | ⟨hlt, offset, rfl⟩
  · exact Tries.all
  · exact Tries.tooDeep hlt

theorem Tries.before_operator {outcome : Except ParseError (Term × Cursor)} {token : Token}
    (h : Tries level room n c outcome) (hpeek : c.peek? = some token)
    (hlevel : level < token.binding) (hmax : token.binding ≤ 8) :
    Tries level room n c' outcome := by
  cases h with
  | fails he => exact Tries.fails he
  | tooDeep hlt => exact Tries.tooDeep hlt
  | all => exact Tries.before hpeek hlevel hmax
  | before hpeek hlevel hmax => exact Tries.before hpeek hlevel hmax

theorem Cursor.isFinal_unexpected (c : Cursor) (expected : Expectation) :
    (c.unexpected expected).isFinal = false := by
  rcases c with ⟨rest, depth⟩
  cases rest <;> rfl

theorem term_eq_error {factor : Parser Term} {e : ParseError} (h : factor c = .error e) :
    Parser.sum (Parser.product factor) c = .error e := by
  have hproduct : Parser.product factor c = .error e := by
    unfold Parser.product
    rw [chain_eq_error h]
    rfl
  unfold Parser.sum
  rw [chain_eq_error hproduct]
  rfl

theorem term_eq_factor {factor : Parser Term} {t : Term} (h : factor c = .ok (t, c'))
    (hstops : c'.Stops 2) : Parser.sum (Parser.product factor) c = .ok (t, c') := by
  have hmul : c'.accept? Token.multiplicative? = none :=
    Cursor.accept?_eq_none _ (hstops.mono (by decide)) fun hmark =>
      Nat.le_of_eq (Token.binding_of_multiplicative hmark)
  have hadd : c'.accept? Token.additive? = none :=
    Cursor.accept?_eq_none _ hstops fun hmark => Nat.le_of_eq (Token.binding_of_additive hmark)
  have hproduct : Parser.product factor c = .ok (t, c') := by
    unfold Parser.product
    rw [chain_eq_single h hmul]
    rfl
  unfold Parser.sum
  rw [chain_eq_single hproduct hadd]
  rfl

theorem tries_of_unexpected (hpos : 0 < n)
    (h : ∀ {deeperTerm deeperFactor},
      Parser.factor deeperTerm deeperFactor c = .error (c.unexpected .term)) :
    Tries level room n c' ((Readers.levels room).term c) := by
  cases room with
  | zero => exact Tries.tooDeep hpos
  | succ room =>
      show Tries _ _ _ _ (Parser.sum (Parser.product _) c)
      rw [term_eq_error h]
      exact Tries.fails (c.isFinal_unexpected .term)

theorem tries_name {name : String} (hts : c.Reads [.name name] c') (hroom : c.HasRoom room)
    (hstops : c'.Stops 2) : Tries level room (n + 1) c' ((Readers.levels room).term c) := by
  have hterm : DerivesTerm (n + 1) .term [.name name] (.var name) :=
    DerivesTerm.ofProduct (DerivesTerm.ofFactor DerivesTerm.name)
  exact Tries.of_yields ((complete_terms room).1 hterm hts hroom hstops)

theorem Tries.nested {parser : Parser Term} (hroom : c.HasRoom (room + 1)) (hpos : 0 < n)
    (hts : c.Reads ts c')
    (h : Tries level room n ⟨c'.rest, c.depth + 1⟩ (parser ⟨c.rest, c.depth + 1⟩)) :
    Tries level (room + 1) (n + 1) c' (Parser.nested parser c) := by
  by_cases hdepth : c.depth < nestingLimit
  · rw [nested_eq parser hdepth]
    generalize parser ⟨c.rest, c.depth + 1⟩ = outcome at h
    cases h with
    | fails he => exact Tries.fails he
    | tooDeep hlt => exact Tries.tooDeep (Nat.succ_lt_succ hlt)
    | all =>
        show Tries _ _ _ _ (.ok (_, Cursor.leave ⟨c'.rest, c.depth + 1⟩))
        rw [hts.leave_deeper]
        exact Tries.all
    | before hpeek hlevel hmax => exact Tries.before hpeek hlevel hmax
  · rw [nested_eq_error parser hdepth]
    rw [hroom.depth_lt_iff] at hdepth
    exact Tries.tooDeep (by omega)

theorem Tries.closed {outcome : Except ParseError (Term × Cursor)} {factor : Parser Term}
    {level' : Nat} {middle : Cursor} (h : Tries level' room n middle outcome)
    (hfactor : factor c = (do
      let (body, c) ← outcome
      let c ← c.expect .closeParen .closeParen
      return (body, c)))
    (hparen : middle.Reads [.closeParen] c') (hstops : c'.Stops 2) :
    Tries level room n c' (Parser.sum (Parser.product factor) c) := by
  cases h with
  | fails he =>
      rw [term_eq_error hfactor]
      exact Tries.fails he
  | tooDeep hlt =>
      rw [term_eq_error hfactor]
      exact Tries.tooDeep hlt
  | @all t =>
      have hend : factor c = .ok (t, c') := by
        rw [hfactor]
        show middle.expect .closeParen .closeParen >>= _ = _
        rw [Cursor.expect_of_reads hparen]
        rfl
      rw [term_eq_factor hend hstops]
      exact Tries.all
  | @before t c'' token hpeek hlevel hmax =>
      have hother : c''.peek? ≠ some .closeParen := by
        rw [hpeek]
        rintro ⟨rfl⟩
        exact absurd hmax (by decide)
      have hend : factor c = .error (c''.unexpected .closeParen) := by
        rw [hfactor]
        show c''.expect .closeParen .closeParen >>= _ = _
        rw [Cursor.expect_eq_error hother]
        rfl
      rw [term_eq_error hend]
      exact Tries.fails (c''.isFinal_unexpected .closeParen)

theorem tries_paren {level' : Nat} (hpos : 0 < n)
    (h : ∀ {room c c'}, c.Reads ts c' → c.HasRoom room → c'.Stops 3 →
      Tries level' room n c' ((Readers.levels room).term c))
    (hts : c.Reads (.openParen :: (ts ++ [.closeParen])) c') (hroom : c.HasRoom room)
    (hstops : c'.Stops 2) : Tries level room (n + 1) c' ((Readers.levels room).term c) := by
  cases room with
  | zero => exact Tries.tooDeep (Nat.succ_pos n)
  | succ room =>
      cases hts with
      | @step _ _ depth rest _ _ hts =>
          rcases hts.exists_of_append with ⟨middle, hbody, hparen⟩
          have hinner := h (hbody.withDepth _) (Cursor.HasRoom.deeper hroom)
            (hparen.stops (by decide))
          have hnested : Tries level' (room + 1) (n + 1) middle
              (Parser.nested (Readers.levels room).term ⟨rest, depth⟩) :=
            Tries.nested hroom hpos hbody hinner
          exact hnested.closed rfl hparen hstops

theorem tries_term {symbol : FormulaSymbol} {tree : Tree} (h : Derives n symbol ts tree)
    (hts : c.Reads ts c') (hroom : c.HasRoom room) (hstops : c'.Stops 3) :
    Tries 2 room n c' ((Readers.levels room).term c) := by
  -- A term never goes past the first operand of a formula, so each operator is an end of it.
  induction h generalizing room c c' with
  | ofImplication _ ih | ofJunction _ ih | ofOperand _ ih | ofUnary _ ih | ofPrimary _ ih =>
      exact ih hts hroom hstops
  | iff _ _ ih _ | implies _ _ ih _ | temporal _ _ ih _ =>
      rcases hts.exists_of_append with ⟨afterLeft, hleft, hop⟩
      have htries := ih hleft hroom (hop.stops (by simp))
      exact htries.before_operator hop.peek?_eq (by simp) (by simp)
  | @chain n k operands hlength _ ih =>
      match operands with
      | [] | [_] => simp at hlength
      | first :: second :: rest =>
          rw [List.map_cons, List.map_cons, List.intercalate_cons_cons, List.append_assoc] at hts
          rcases hts.exists_of_append with ⟨afterFirst, hfirst, hop⟩
          have hbinding : 5 ≤ (Token.connective k).binding ∧ (Token.connective k).binding ≤ 6 := by
            cases k <;> decide
          have htries := ih first List.mem_cons_self hfirst hroom
            (hop.stops (Nat.lt_of_lt_of_le (by decide) hbinding.1))
          exact htries.before_operator hop.peek?_eq (Nat.lt_of_lt_of_le (by decide) hbinding.1)
            (Nat.le_trans hbinding.2 (by decide))
  | not _ _ | modal _ _ | constant =>
      apply tries_of_unexpected (Nat.succ_pos _)
      intro deeperTerm deeperFactor
      cases hts with
      | step _ => rfl
  | atom hleft _ =>
      rcases hts.exists_of_append with ⟨afterLeft, hus, hop⟩
      have hyields := (complete_terms room).1 hleft hus hroom (hop.stops (by simp))
      exact (Tries.of_yields hyields).before_operator hop.peek?_eq (by simp) (by simp)
  | proposition => exact tries_name hts hroom (hstops.mono (by decide))
  | paren hformula ih =>
      exact tries_paren hformula.levels_pos ih hts hroom (hstops.mono (by decide))

/-!
## Formulas

Where no comparison stands, nothing is read by the try of one, and the tokens are read
as a formula.
-/

theorem Token.binding_of_comparison {token : Token} {op : Comparison}
    (h : token.comparison? = some op) : token.binding = 3 := by
  rcases Token.comparison?_eq_some_iff.mp h with rfl
  rfl

theorem Token.binding_of_temporal {token : Token} {op : TemporalOperator}
    (h : token.temporal? = some op) : token.binding = 4 := by
  rcases Token.temporal?_eq_some_iff.mp h with rfl
  rfl

theorem yields_atom {term : Parser Term} {us : List Token} {op : Comparison} {left right : Term}
    (h : Complete term 2 room (DerivesTerm · .term)) (hleft : DerivesTerm n .term ts left)
    (hright : DerivesTerm n .term us right) (hts : c.Reads (ts ++ .comparison op :: us) c')
    (hroom : c.HasRoom room) (hstops : c'.Stops 2) :
    Yields room n (Parser.atom? term c) (some (.atom left op right)) c' := by
  rcases hts.exists_of_append with ⟨afterLeft, hts, hop⟩
  unfold Parser.atom?
  rcases h hleft hts hroom (hop.stops (by simp)) with hok | ⟨hlt, offset, herror⟩
  · rcases Cursor.accept?_of_reads Token.comparison? hop rfl with
      ⟨afterOp, haccept, htoken, hus⟩
    rw [hok]
    dsimp only
    rw [haccept]
    exact (h hright hus (htoken.hasRoom (hts.hasRoom hroom)) hstops).bind (Or.inl rfl)
  · right
    refine ⟨hlt, offset, ?_⟩
    rw [herror]
    rfl

theorem yields_no_atom {term : Parser Term} (h : Tries 3 room n c' (term c))
    (hstops : c'.Stops 3) : Yields room n (Parser.atom? term c) none c := by
  have hnone : ∀ {c : Cursor}, c.Stops 3 → c.accept? Token.comparison? = none := fun hstops =>
    Cursor.accept?_eq_none _ hstops fun hop => Nat.le_of_eq (Token.binding_of_comparison hop)
  unfold Parser.atom?
  generalize term c = outcome at h
  cases h with
  | fails he =>
      left
      dsimp only
      rw [he]
      rfl
  | @tooDeep offset hlt => exact Or.inr ⟨hlt, offset, rfl⟩
  | all =>
      left
      dsimp only
      rw [hnone hstops]
  | before hpeek hlevel _ =>
      left
      dsimp only
      rw [hnone]
      intro token htoken
      rw [hpeek] at htoken
      cases htoken
      exact hlevel

theorem complete_primary {deeperFormula : Parser Tree}
    (hformula : Complete deeperFormula 8 room (Derives · .formula)) :
    Complete (Parser.primary (Readers.levels (room + 1)).term deeperFormula) 3 (room + 1)
      (Derives · .primary) := by
  intro n ts t c c' ht hts hroom hstops
  have hstopsTerm : c'.Stops 2 := hstops.mono (by decide)
  cases ht with
  | atom hleft hright =>
      exact (yields_atom (complete_terms _).1 hleft hright hts hroom hstopsTerm).bind (Or.inl rfl)
  | @constant n value =>
      have htries : Tries 3 (room + 1) (n + 1) c' ((Readers.levels (room + 1)).term c) := by
        apply tries_of_unexpected (Nat.succ_pos _)
        intro deeperTerm deeperFactor
        cases hts with
        | step _ => rfl
      refine (yields_no_atom htries hstops).bind (Or.inl ?_)
      cases hts with
      | step hts =>
          cases hts
          rfl
  | proposition =>
      refine (yields_no_atom (tries_name hts hroom hstopsTerm) hstops).bind (Or.inl ?_)
      cases hts with
      | step hts =>
          cases hts
          rfl
  | @paren n ts t ht =>
      -- A comparison after the parenthesis would bind more tightly than where the reader stops.
      have htries : Tries 3 (room + 1) (n + 1) c' ((Readers.levels (room + 1)).term c) :=
        tries_paren ht.levels_pos (tries_term ht) hts hroom hstopsTerm
      refine (yields_no_atom htries hstops).bind ?_
      cases hts with
      | step hts =>
          rcases hts.exists_of_append with ⟨afterBody, hbody, hparen⟩
          have hyields := hformula.nested ht ht.levels_pos hbody hroom (hparen.stops (by decide))
          refine hyields.bind (Or.inl ?_)
          show afterBody.expect .closeParen .closeParen >>= _ = _
          rw [Cursor.expect_of_reads hparen]
          rfl

theorem Derives.exists_first {t : Tree} (h : Derives n .primary ts t) :
    ∃ token us, ts = token :: us ∧ token.unary? = none := by
  cases h with
  | constant | proposition | paren => exact ⟨_, _, rfl, rfl⟩
  | atom hleft _ =>
      rcases hleft.exists_first with ⟨token, us, rfl, htoken⟩
      exact ⟨token, _, rfl, htoken⟩

theorem yields_prefix {primary deeperUnary : Parser Tree} {token : Token} {build : Tree → Tree}
    {body : Tree} (h : Complete deeperUnary 3 room (Derives · .unary))
    (hbuild : token.unary? = some build) (hbody : Derives n .unary ts body)
    (hts : c.Reads (token :: ts) c') (hroom : c.HasRoom (room + 1)) (hstops : c'.Stops 3) :
    Yields (room + 1) (n + 1) (Parser.unary primary deeperUnary c) (build body) c' := by
  rcases Cursor.accept?_of_reads Token.unary? hts hbuild with ⟨afterToken, haccept, htoken, hus⟩
  have hyields := h.nested hbody hbody.levels_pos hus (htoken.hasRoom hroom) hstops
  unfold Parser.unary
  rw [haccept]
  exact hyields.bind (Or.inl rfl)

theorem complete_unary {primary deeperUnary : Parser Tree}
    (hprimary : Complete primary 3 (room + 1) (Derives · .primary))
    (hunary : Complete deeperUnary 3 room (Derives · .unary)) :
    Complete (Parser.unary primary deeperUnary) 3 (room + 1) (Derives · .unary) := by
  intro n ts t c c' ht hts hroom hstops
  cases ht with
  | ofPrimary ht =>
      rcases ht.exists_first with ⟨token, us, rfl, htoken⟩
      unfold Parser.unary
      rw [Cursor.accept?_eq_none_of_reads Token.unary? hts htoken]
      exact hprimary ht hts hroom hstops
  | not hbody => exact yields_prefix hunary rfl hbody hts hroom hstops
  | modal hbody => exact yields_prefix hunary rfl hbody hts hroom hstops

theorem complete_binary {unary deeperBinary : Parser Tree}
    (hunary : Complete unary 3 (room + 1) (Derives · .unary))
    (hbinary : Complete deeperBinary 4 room (Derives · .binary)) :
    Complete (Parser.binary unary deeperBinary) 4 (room + 1) (Derives · .binary) := by
  intro n ts t c c' ht hts hroom hstops
  cases ht with
  | ofUnary ht =>
      have hnone : c'.accept? Token.temporal? = none :=
        Cursor.accept?_eq_none _ hstops fun hop => Nat.le_of_eq (Token.binding_of_temporal hop)
      refine (hunary ht hts hroom (hstops.mono (by decide))).bind (Or.inl ?_)
      dsimp only
      rw [hnone]
      rfl
  | temporal hleft hright =>
      rcases hts.exists_of_append with ⟨afterLeft, hts, hop⟩
      refine (hunary hleft hts hroom (hop.stops (by simp))).bind ?_
      rcases Cursor.accept?_of_reads Token.temporal? hop rfl with
        ⟨afterOp, haccept, htoken, hus⟩
      have hroomOp := htoken.hasRoom (hts.hasRoom hroom)
      dsimp only
      rw [haccept]
      exact (hbinary.nested hright hright.levels_pos hus hroomOp hstops).bind (Or.inl rfl)

theorem complete_connected {k : Connective} {operand : Parser Tree}
    (hlevel : (Token.connective k).binding = level + 1)
    (h : Complete operand level room (Derives · (.operand k))) :
    Complete (Parser.connected k operand) (level + 1) room (Derives · (.junction k)) := by
  have hseparator : ∀ {token mark}, (Token.connective k).only token = some mark →
      token.binding = level + 1 := by
    intro token mark hmark
    rcases Token.only_eq_some_iff.mp hmark with rfl
    exact hlevel
  intro n ts t c c' ht hts hroom hstops
  rw [connected_eq]
  exact h.chain hseparator (junctionTree k) (derives_junction_iff.mp ht) hts hroom hstops

theorem complete_implicational {disjunction deeperImplication : Parser Tree}
    (hdisjunction : Complete disjunction 6 (room + 1) (Derives · (.junction .or)))
    (himplication : Complete deeperImplication 7 room (Derives · .implication)) :
    Complete (Parser.implicational disjunction deeperImplication) 7 (room + 1)
      (Derives · .implication) := by
  intro n ts t c c' ht hts hroom hstops
  cases ht with
  | ofJunction ht =>
      have hnone : c'.accept? (Token.only .implies) = none := by
        apply Cursor.accept?_eq_none _ hstops
        intro token mark hmark
        rcases Token.only_eq_some_iff.mp hmark with rfl
        exact Nat.le_refl 7
      refine (hdisjunction ht hts hroom (hstops.mono (by decide))).bind (Or.inl ?_)
      dsimp only
      rw [hnone]
      rfl
  | implies hpremise hconclusion =>
      rcases hts.exists_of_append with ⟨afterPremise, hts, hop⟩
      refine (hdisjunction hpremise hts hroom (hop.stops (by decide))).bind ?_
      rcases Cursor.accept?_of_reads (Token.only .implies) hop rfl with
        ⟨afterOp, haccept, htoken, hus⟩
      have hroomOp := htoken.hasRoom (hts.hasRoom hroom)
      dsimp only
      rw [haccept]
      exact (himplication.nested hconclusion hconclusion.levels_pos hus hroomOp hstops).bind
        (Or.inl rfl)

theorem complete_equivalential {implication : Parser Tree}
    (h : Complete implication 7 room (Derives · .implication)) :
    Complete (Parser.equivalential implication) 8 room (Derives · .formula) := by
  have hseparator : ∀ {token mark}, Token.only .iff token = some mark → token.binding = 8 := by
    intro token mark hmark
    rcases Token.only_eq_some_iff.mp hmark with rfl
    rfl
  exact (h.chain hseparator _).iff derives_formula_iff

/-!
## All levels

What is generated is read as the tree that it is generated as, or levels run out, which
happens only if the derivation needs more than there are.
-/

structure Readers.AreComplete (readers : Readers) (room : Nat) : Prop where
  formula : Complete readers.formula 8 room (Derives · .formula)
  implication : Complete readers.implication 7 room (Derives · .implication)
  binary : Complete readers.binary 4 room (Derives · .binary)
  unary : Complete readers.unary 3 room (Derives · .unary)

theorem Readers.areComplete_levels (room : Nat) : (Readers.levels room).AreComplete room := by
  induction room with
  | zero => constructor <;> exact Complete.of_levels_pos (·.levels_pos)
  | succ room ih =>
      have hunary := complete_unary (complete_primary ih.formula) ih.unary
      have hbinary := complete_binary hunary ih.binary
      have hconjunction := complete_connected (k := .and) rfl hbinary
      have hdisjunction := complete_connected (k := .or) rfl hconjunction
      have himplication := complete_implicational hdisjunction ih.implication
      exact ⟨complete_equivalential himplication, himplication, hbinary, hunary⟩

theorem Derives.ne_nil {symbol : FormulaSymbol} {t : Tree} (h : Derives n symbol ts t) :
    ts ≠ [] := by
  induction h with
  | ofImplication _ ih | ofJunction _ ih | ofOperand _ ih | ofUnary _ ih | ofPrimary _ ih =>
      exact ih
  | @chain n k operands hlength _ _ =>
      match operands with
      | [] | [_] => simp at hlength
      | first :: second :: rest => simp
  | _ => simp

theorem Cursor.reads_all (tokens : List Located) (depth : Nat) :
    Cursor.Reads ⟨tokens, depth⟩ (tokens.map Located.token) ⟨[], depth⟩ := by
  induction tokens with
  | nil => exact Reads.refl _
  | cons located tokens ih => exact Reads.step ih

theorem readTree_of_derives {tokens : List Located} {t : Tree}
    (h : Derives n .formula (tokens.map Located.token) t) :
    readTree tokens = .ok t ∨
      nestingLimit + 1 < n ∧ ∃ offset, readTree tokens = .error (.tooDeep offset) := by
  have htokens : tokens ≠ [] := fun hnil => h.ne_nil (by rw [hnil]; rfl)
  have hstops : Cursor.Stops 8 ⟨[], 0⟩ := nofun
  have hyields := (Readers.areComplete_levels (nestingLimit + 1)).formula h
    (Cursor.reads_all tokens 0) (Nat.zero_add _) hstops
  unfold readTree Cursor.start
  rw [if_neg htokens]
  rcases hyields with hok | ⟨hlt, offset, herror⟩
  · left
    rw [hok]
    rfl
  · right
    refine ⟨hlt, offset, ?_⟩
    rw [herror]
    rfl

/-- The readers read the language of the grammar: what they read is generated, and what is
generated is read with the same value unless it nests too deeply. -/
theorem readFormula_generates (tokens : List Located) :
    (∀ f, readFormula tokens = .ok f →
      ∃ t, Generates (tokens.map Located.token) t ∧ t.toFormula = f) ∧
    (∀ t, Generates (tokens.map Located.token) t →
      readFormula tokens = .ok t.toFormula ∨
        ∃ offset, readFormula tokens = .error (.tooDeep offset)) := by
  constructor
  · intro f h
    rcases bind_eq_ok.mp h with ⟨t, ht, hreturn⟩
    cases hreturn
    exact ⟨t, generates_of_readTree ht, rfl⟩
  · rintro t ⟨n, h⟩
    unfold readFormula
    rcases readTree_of_derives h with hok | ⟨_, offset, herror⟩
    · left
      rw [hok]
      rfl
    · right
      refine ⟨offset, ?_⟩
      rw [herror]
      rfl

theorem readFormula_generates_paren :
    readFormula [⟨.openParen, 0⟩, ⟨.name "p", 1⟩, ⟨.closeParen, 2⟩] =
        .ok (Formula.proposition "p") ∧
      ∃ t, Generates [.openParen, .name "p", .closeParen] t ∧
        t.toFormula = Formula.proposition "p" := by
  have h : readFormula [⟨.openParen, 0⟩, ⟨.name "p", 1⟩, ⟨.closeParen, 2⟩] =
      .ok (Formula.proposition "p") := by rfl
  exact ⟨h, (readFormula_generates _).1 _ h⟩

end Surface
end LinearTemporal

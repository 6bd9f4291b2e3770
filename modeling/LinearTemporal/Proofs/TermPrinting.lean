import LinearTemporal.Proofs.Lexing
import LinearTemporal.Proofs.SurfaceGrammar

/-!
# The written form of terms

The grammar derives the text of a term as that term.  A term is derived at the level of its
operator, and an operand that stands where only tighter operators may stand has parentheses
around it.  Every step down the tree takes at most two levels: one for a minus, and one for
parentheses.
-/

namespace LinearTemporal

def Term.height : Term → Nat
  | var _ => 0
  | int _ => 0
  | neg body => body.height + 1
  | binary _ left right => max left.height right.height + 1

namespace Surface

/-- The tokens of the text are derived as the term. -/
def WritesTerm (n : Nat) (symbol : TermSymbol) (text : String) (t : Term) : Prop :=
  ∃ ts, Spells text ts ∧ DerivesTerm n symbol ts t

def TermSymbol.ofPrecedence : Nat → TermSymbol
  | 0 => term
  | 1 => term
  | 2 => product
  | _ => factor

variable {n : Nat}

theorem DerivesTerm.looser {p q : Nat} {ts : List Token} {t : Term}
    (h : DerivesTerm n (.ofPrecedence q) ts t) (hle : p ≤ q) :
    DerivesTerm n (.ofPrecedence p) ts t := by
  match p, q with
  | 0, 0 | 0, 1 | 1, 1 | 2, 2 => exact h
  | 0, 2 | 1, 2 => exact ofProduct h
  | 0, q + 3 | 1, q + 3 => exact ofProduct (ofFactor h)
  | 2, q + 3 => exact ofFactor h
  | p + 3, q + 3 => exact h

theorem WritesTerm.parenthesized {text : String} {t : Term} (h : WritesTerm n .term text t) :
    WritesTerm (n + 1) .factor ("(" ++ text ++ ")") t := by
  rcases h with ⟨ts, hspells, hderives⟩
  exact ⟨_, hspells.parenthesized, DerivesTerm.paren hderives⟩

theorem WritesTerm.mono {m : Nat} {symbol : TermSymbol} {text : String} {t : Term}
    (h : WritesTerm n symbol text t) (hle : n ≤ m) : WritesTerm m symbol text t := by
  rcases h with ⟨ts, hspells, hderives⟩
  exact ⟨ts, hspells, hderives.mono hle⟩

theorem WritesTerm.succ {symbol : TermSymbol} {text : String} {t : Term}
    (h : WritesTerm n symbol text t) : WritesTerm (n + 1) symbol text t :=
  h.mono (Nat.le_succ n)

theorem WritesTerm.looser {text : String} {t : Term} {p q : Nat}
    (h : WritesTerm n (.ofPrecedence q) text t) (hle : p ≤ q) :
    WritesTerm n (.ofPrecedence p) text t := by
  rcases h with ⟨ts, hspells, hderives⟩
  exact ⟨ts, hspells, hderives.looser hle⟩

/-!
Every level of terms is a term, and an operand may stand where it does, with parentheses
if it needs them.  Directly after a minus there may be no digits.
-/

theorem WritesTerm.term {text : String} {t : Term} {q : Nat}
    (h : WritesTerm n (.ofPrecedence q) text t) : WritesTerm n .term text t :=
  h.looser (Nat.zero_le q)

theorem WritesTerm.operand {text : String} {t : Term} {p q : Nat} {needed : Bool}
    (h : WritesTerm n (.ofPrecedence q) text t) (hneeded : needed = false → p ≤ q) :
    WritesTerm (n + 1) (.ofPrecedence p) (Term.bracket needed text) t := by
  cases needed with
  | true =>
      have hfactor : WritesTerm (n + 1) (.ofPrecedence (p + 3)) ("(" ++ text ++ ")") t :=
        h.term.parenthesized
      exact hfactor.looser (Nat.le_add_right p 3)
  | false => exact (h.looser (hneeded rfl)).succ

theorem WritesTerm.binary {op : Arithmetic} {left right : Term} {text text' : String}
    (hleft : WritesTerm n (.ofPrecedence op.precedence) text left)
    (hright : WritesTerm n (.ofPrecedence (op.precedence + 1)) text' right) :
    WritesTerm n (.ofPrecedence op.precedence) (text ++ " " ++ op.symbol ++ " " ++ text')
      (.binary op left right) := by
  rcases hleft with ⟨ts, hts, hleft⟩
  rcases hright with ⟨us, hus, hright⟩
  refine ⟨_, hts.infixed (isSymbol_arithmetic op) hus, ?_⟩
  cases op with
  | add | sub => exact DerivesTerm.sum nofun hleft hright
  | mul => exact DerivesTerm.mul hleft hright

theorem DerivesTerm.eq_int {digits : String} {us : List Token} {t : Term}
    (h : DerivesTerm n .factor (.digits digits :: us) t) : ∃ value, t = .int value := by
  cases h with
  | integer _ => exact ⟨_, rfl⟩

theorem WritesTerm.neg {text : String} {body : Term} {c : Char} {cs : List Char}
    (h : WritesTerm n .factor text body) (hbody : ∀ value, body ≠ .int value)
    (htext : text.toList = c :: cs) (hc : c ≠ '>') :
    WritesTerm (n + 1) .factor ("-" ++ text) (.neg body) := by
  rcases h with ⟨ts, hspells, hderives⟩
  refine ⟨_, hspells.minus htext hc, DerivesTerm.neg ?_ hderives⟩
  rintro digits us rfl
  rcases hderives.eq_int with ⟨value, hvalue⟩
  exact hbody value hvalue

theorem WritesTerm.negParenthesized {text : String} {body : Term}
    (h : WritesTerm n .term text body) :
    WritesTerm (n + 2) .factor ("-" ++ ("(" ++ text ++ ")")) (.neg body) := by
  rcases h with ⟨ts, hspells, hderives⟩
  have htext : ("(" ++ text ++ ")").toList = '(' :: (text ++ ")").toList := by simp
  exact ⟨_, hspells.parenthesized.minus htext (by decide),
    DerivesTerm.neg nofun (DerivesTerm.paren hderives)⟩

/-!
## Literals

A number is written with one digit or more.  A literal below zero has its minus directly
before the digits, so it is one factor.
-/

theorem exists_digits (m : Nat) :
    ∃ c cs, m.repr.toList = c :: cs ∧ c.isDigit = true ∧ cs.all Char.isDigit = true := by
  have hdigits : ∀ c ∈ m.repr.toList, c.isDigit = true := by
    intro c hc
    rw [Nat.toList_repr] at hc
    exact Nat.isDigit_of_mem_toDigits (by decide) (by decide) hc
  cases hrepr : m.repr.toList with
  | nil => exact absurd (Nat.toList_repr.symm.trans hrepr) Nat.toDigits_ne_nil
  | cons c cs =>
      rw [hrepr] at hdigits
      exact ⟨c, cs, rfl, hdigits c List.mem_cons_self,
        List.all_eq_true.mpr fun d hd => hdigits d (List.mem_cons_of_mem c hd)⟩

theorem decimal?_repr (m : Nat) : decimal? m.repr.toList = some m := by
  rcases exists_digits m with ⟨c, cs, hrepr, hc, hcs⟩
  have hall : m.repr.toList ≠ [] ∧ m.repr.toList.all Char.isDigit = true := by
    rw [hrepr, List.all_cons, hc, hcs]
    exact ⟨List.cons_ne_nil c cs, rfl⟩
  unfold decimal?
  rw [if_pos hall, Nat.toList_repr, Nat.ofDigitChars_toDigits (by decide) (by decide)]

theorem writesTerm_int (value : Int64) :
    WritesTerm (n + 1) .factor (toString value.toInt) (.int value) := by
  rw [Int.toString_eq_repr, Int.repr_eq_if]
  split
  · rename_i hnonneg
    rcases exists_digits value.toInt.toNat with ⟨c, cs, hrepr, hc, hcs⟩
    refine ⟨_, Spells.digits hrepr hc hcs, DerivesTerm.integer ?_⟩
    unfold Denotes
    rw [integer?_of_decimal? (decimal?_repr _), Int.toNat_of_nonneg hnonneg]
  · rename_i hneg
    rcases exists_digits (-value.toInt).toNat with ⟨c, cs, hrepr, hc, hcs⟩
    have harrow : c ≠ '>' := by
      rintro rfl
      cases hc
    have hpos : 0 ≤ -value.toInt := Int.neg_nonneg_of_nonpos (Int.le_of_lt (Int.not_le.mp hneg))
    have hminus : "-".toList = ['-'] := rfl
    refine ⟨_, (Spells.digits hrepr hc hcs).minus hrepr harrow, DerivesTerm.negative ?_⟩
    unfold Denotes
    rw [String.toList_append, hminus, integer?_minus, decimal?_repr, Option.map_some,
      Int.ofNat_eq_natCast, Int.toNat_of_nonneg hpos, Int.neg_neg]

/-!
## Terms

By induction over the term, each constructor at the level of its operator.
-/

theorem exists_render_neg (body : Term) : ∃ text, (Term.neg body).render = "-" ++ text := by
  cases body with
  | var | int | neg | binary => exact ⟨_, rfl⟩

theorem writesTerm_render_neg {body : Term}
    (hnames : ∀ name ∈ body.variableNames, IsIdentifier name)
    (hbody : WritesTerm n (.ofPrecedence body.precedence) body.render body) :
    WritesTerm (n + 2) .factor (Term.neg body).render (.neg body) := by
  cases body with
  | var name =>
      rcases (hnames name List.mem_cons_self).spelling with ⟨c, cs, htext, hstart, _⟩
      have hc : c ≠ '>' := by
        rintro rfl
        cases isNameStart_iff.mpr hstart
      exact hbody.succ.neg nofun htext hc
  | int value => exact hbody.term.negParenthesized
  | neg body =>
      rcases exists_render_neg body with ⟨text, htext⟩
      have hminus : (Term.neg body).render.toList = '-' :: text.toList := by
        rw [htext]
        simp
      exact hbody.succ.neg nofun hminus (by decide)
  | binary op left right =>
      have hprecedence : decide (op.precedence < 3) = true := by cases op <;> rfl
      have hparenthesized : WritesTerm (n + 2) .factor
          ("-" ++ Term.bracket true (Term.binary op left right).render)
          (.neg (.binary op left right)) := hbody.term.negParenthesized
      rw [← hprecedence] at hparenthesized
      exact hparenthesized

/-- The text of a term is derived as the term, at the level of its operator. -/
theorem writesTerm_render {t : Term} (hnames : ∀ name ∈ t.variableNames, IsIdentifier name)
    (hn : 2 * t.height + 1 ≤ n) : WritesTerm n (.ofPrecedence t.precedence) t.render t := by
  induction t generalizing n with
  | var name =>
      rcases Nat.exists_eq_add_of_le' hn with ⟨m, rfl⟩
      exact ⟨_, Spells.identifier (hnames name List.mem_cons_self), DerivesTerm.name⟩
  | int value =>
      rcases Nat.exists_eq_add_of_le' hn with ⟨m, rfl⟩
      exact writesTerm_int value
  | neg body ih =>
      have hheight : 2 * body.height + 1 + 2 ≤ n := hn
      rcases Nat.exists_eq_add_of_le' hheight with ⟨m, rfl⟩
      rw [← Nat.add_assoc]
      exact writesTerm_render_neg hnames (ih hnames (Nat.le_add_left _ m))
  | binary op left right ihleft ihright =>
      have hheight : 2 * max left.height right.height + 1 + 2 ≤ n := hn
      rcases Nat.exists_eq_add_of_le' hheight with ⟨m, rfl⟩
      have hleft := (ihleft (fun name hname => hnames name (List.mem_append_left _ hname))
        (Nat.add_le_add_right (Nat.mul_le_mul_left 2 (Nat.le_max_left _ right.height)) 1))
      have hright := (ihright (fun name hname => hnames name (List.mem_append_right _ hname))
        (Nat.add_le_add_right (Nat.mul_le_mul_left 2 (Nat.le_max_right left.height _)) 1))
      refine WritesTerm.mono (WritesTerm.binary (hleft.operand ?_) (hright.operand ?_)) ?_
      · intro hneeded
        exact Nat.le_of_not_lt (of_decide_eq_false hneeded)
      · intro hneeded
        exact Nat.lt_of_not_le (of_decide_eq_false hneeded)
      · exact Nat.le_succ_of_le (Nat.le_add_left _ m)

end Surface
end LinearTemporal

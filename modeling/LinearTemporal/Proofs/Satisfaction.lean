import LinearTemporal.Proofs.Parts
import LinearTemporal.Word.State

/-!
# Satisfaction on infinite words

The meaning of formulas: when a formula holds at a position of an infinite word.
Nothing here looks at how words are represented or how formulas are evaluated.
The main statement says that satisfaction at a position depends on the word from
that position on only.
-/

namespace LinearTemporal
namespace Formula

/-!
## The definition

The operands of a junction are taken one by one.  The equations below say what each
operator means, and nothing else opens the definition.
-/

mutual

/-- The formula holds at a position of a word. -/
def Holds (word : Nat → State) : Formula → Nat → Prop
  | const value, _ => value = true
  | literal name false, i => (word i).holds name = true
  | literal name true, i => ¬ (word i).holds name = true
  | atom left op right, i =>
      op.holds (left.evaluate (word i).value) (right.evaluate (word i).value) = true
  | not body, i => ¬ Holds word body i
  | next body, i => Holds word body (i + 1)
  | always body, i => ∀ j, i ≤ j → Holds word body j
  | eventually body, i => ∃ j, i ≤ j ∧ Holds word body j
  | untl left right, i =>
      ∃ k, i ≤ k ∧ Holds word right k ∧ ∀ j, i ≤ j → j < k → Holds word left j
  | release left right, i =>
      ∀ k, i ≤ k → Holds word right k ∨ ∃ j, i ≤ j ∧ j < k ∧ Holds word left j
  | junction .and operands, i => HoldAll word operands i
  | junction .or operands, i => HoldsAny word operands i

def HoldAll (word : Nat → State) : List Formula → Nat → Prop
  | [], _ => True
  | f :: fs, i => Holds word f i ∧ HoldAll word fs i

def HoldsAny (word : Nat → State) : List Formula → Nat → Prop
  | [], _ => False
  | f :: fs, i => Holds word f i ∨ HoldsAny word fs i

end

variable {word : Nat → State}

theorem holdAll_iff {fs : List Formula} {i : Nat} :
    HoldAll word fs i ↔ ∀ f ∈ fs, f.Holds word i := by
  induction fs with
  | nil => simp [HoldAll]
  | cons f fs ih => simp [HoldAll, ih]

theorem holdsAny_iff {fs : List Formula} {i : Nat} :
    HoldsAny word fs i ↔ ∃ f ∈ fs, f.Holds word i := by
  induction fs with
  | nil => simp [HoldsAny]
  | cons f fs ih => simp [HoldsAny, ih]

@[simp] theorem holds_const {value : Bool} {i : Nat} :
    (const value).Holds word i ↔ value = true :=
  Iff.rfl

theorem holds_literal {name : String} {negated : Bool} {i : Nat} :
    (literal name negated).Holds word i ↔ (word i).holds name ≠ negated := by
  cases negated with
  | false => exact Bool.ne_false_iff.symm
  | true => exact Iff.rfl

theorem holds_atom {left right : Term} {op : Comparison} {i : Nat} :
    (atom left op right).Holds word i ↔
      op.holds (left.evaluate (word i).value) (right.evaluate (word i).value) = true :=
  Iff.rfl

@[simp] theorem holds_not {body : Formula} {i : Nat} :
    (not body).Holds word i ↔ ¬ body.Holds word i :=
  Iff.rfl

@[simp] theorem holds_next {body : Formula} {i : Nat} :
    (next body).Holds word i ↔ body.Holds word (i + 1) :=
  Iff.rfl

@[simp] theorem holds_always {body : Formula} {i : Nat} :
    (always body).Holds word i ↔ ∀ j, i ≤ j → body.Holds word j :=
  Iff.rfl

@[simp] theorem holds_eventually {body : Formula} {i : Nat} :
    (eventually body).Holds word i ↔ ∃ j, i ≤ j ∧ body.Holds word j :=
  Iff.rfl

theorem holds_untl {left right : Formula} {i : Nat} :
    (untl left right).Holds word i ↔
      ∃ k, i ≤ k ∧ right.Holds word k ∧ ∀ j, i ≤ j → j < k → left.Holds word j :=
  Iff.rfl

theorem holds_release {left right : Formula} {i : Nat} :
    (release left right).Holds word i ↔
      ∀ k, i ≤ k → right.Holds word k ∨ ∃ j, i ≤ j ∧ j < k ∧ left.Holds word j :=
  Iff.rfl

theorem holds_and {fs : List Formula} {i : Nat} :
    (junction .and fs).Holds word i ↔ ∀ f ∈ fs, f.Holds word i :=
  holdAll_iff

theorem holds_or {fs : List Formula} {i : Nat} :
    (junction .or fs).Holds word i ↔ ∃ f ∈ fs, f.Holds word i :=
  holdsAny_iff

/-!
## All temporal operators are until

Counted in steps from a position, the operators other than `next` are one
operator: `eventually` waits without a condition, `always` and `release` never
come to an end.
-/

/-- `q` holds after some number of steps, and `p` at each step before. -/
def UntilFrom (p q : Nat → Prop) (i : Nat) : Prop :=
  ∃ d, q (i + d) ∧ ∀ e, e < d → p (i + e)

theorem untilFrom_congr {p q p' q' : Nat → Prop} {i i' : Nat}
    (hp : ∀ d, p (i + d) ↔ p' (i' + d)) (hq : ∀ d, q (i + d) ↔ q' (i' + d)) :
    UntilFrom p q i ↔ UntilFrom p' q' i' := by
  unfold UntilFrom
  simp only [hp, hq]

theorem untilFrom_iff {p q : Nat → Prop} {i : Nat} :
    UntilFrom p q i ↔ q i ∨ (p i ∧ UntilFrom p q (i + 1)) := by
  constructor
  · intro hexists
    rcases hexists with ⟨d, hq, hp⟩
    cases d with
    | zero => exact Or.inl hq
    | succ d =>
        refine Or.inr ⟨hp 0 (Nat.succ_pos d), d, ?_, ?_⟩
        · rw [Nat.add_assoc, Nat.add_comm 1 d]
          exact hq
        · intro e he
          rw [Nat.add_assoc, Nat.add_comm 1 e]
          exact hp (e + 1) (Nat.succ_lt_succ he)
  · intro hcases
    rcases hcases with hq | ⟨hp, d, hq, hbefore⟩
    · exact ⟨0, hq, fun e he => absurd he (Nat.not_lt_zero e)⟩
    · refine ⟨d + 1, ?_, ?_⟩
      · rw [Nat.add_comm d 1, ← Nat.add_assoc]
        exact hq
      · intro e he
        cases e with
        | zero => exact hp
        | succ e =>
            rw [Nat.add_comm e 1, ← Nat.add_assoc]
            exact hbefore e (Nat.lt_of_succ_lt_succ he)

theorem holds_untl_iff_untilFrom {left right : Formula} {i : Nat} :
    (untl left right).Holds word i ↔ UntilFrom (left.Holds word) (right.Holds word) i := by
  rw [holds_untl]
  constructor
  · intro hexists
    rcases hexists with ⟨k, hik, hk, hbefore⟩
    rcases Nat.exists_eq_add_of_le hik with ⟨d, rfl⟩
    exact ⟨d, hk, fun e he => hbefore (i + e) (by omega) (by omega)⟩
  · intro hexists
    rcases hexists with ⟨d, hd, hbefore⟩
    refine ⟨i + d, Nat.le_add_right i d, hd, ?_⟩
    intro j hij hjd
    rcases Nat.exists_eq_add_of_le hij with ⟨e, rfl⟩
    exact hbefore e (by omega)

theorem holds_release_iff_untilFrom {left right : Formula} {i : Nat} :
    (release left right).Holds word i ↔
      ¬ UntilFrom (fun j => ¬ left.Holds word j) (fun j => ¬ right.Holds word j) i := by
  rw [holds_release]
  constructor
  · intro h hexists
    rcases hexists with ⟨d, hright, hleft⟩
    rcases h (i + d) (Nat.le_add_right i d) with hk | ⟨j, hij, hjd, hj⟩
    · exact hright hk
    · rcases Nat.exists_eq_add_of_le hij with ⟨e, rfl⟩
      exact hleft e (by omega) hj
  · intro h k hik
    rcases Nat.exists_eq_add_of_le hik with ⟨d, rfl⟩
    by_cases hk : right.Holds word (i + d)
    · exact Or.inl hk
    · apply Or.inr
      apply Classical.byContradiction
      intro hnone
      apply h
      refine ⟨d, hk, ?_⟩
      intro e he hleft
      exact hnone ⟨i + e, Nat.le_add_right i e, by omega, hleft⟩

theorem holds_eventually_iff_untilFrom {body : Formula} {i : Nat} :
    (eventually body).Holds word i ↔ UntilFrom (fun _ => True) (body.Holds word) i := by
  rw [holds_eventually]
  constructor
  · intro hexists
    rcases hexists with ⟨k, hik, hk⟩
    rcases Nat.exists_eq_add_of_le hik with ⟨d, rfl⟩
    exact ⟨d, hk, fun _ _ => trivial⟩
  · intro hexists
    rcases hexists with ⟨d, hd, _⟩
    exact ⟨i + d, Nat.le_add_right i d, hd⟩

theorem holds_always_iff_untilFrom {body : Formula} {i : Nat} :
    (always body).Holds word i ↔
      ¬ UntilFrom (fun _ => True) (fun j => ¬ body.Holds word j) i := by
  rw [holds_always]
  constructor
  · intro h hexists
    rcases hexists with ⟨d, hd, _⟩
    exact hd (h (i + d) (Nat.le_add_right i d))
  · intro h k hik
    rcases Nat.exists_eq_add_of_le hik with ⟨d, rfl⟩
    apply Classical.byContradiction
    intro hk
    exact h ⟨d, hk, fun _ _ => trivial⟩

/-!
## Only the rest of the word matters

Two words look the same from two positions on if they agree at all equal distances from
these.  A formula cannot tell such positions apart.
-/

def SameFrom (word word' : Nat → State) (i i' : Nat) : Prop :=
  ∀ n, word (i + n) = word' (i' + n)

theorem SameFrom.add {word' : Nat → State} {i i' : Nat} (h : SameFrom word word' i i')
    (d : Nat) : SameFrom word word' (i + d) (i' + d) := by
  intro n
  rw [Nat.add_assoc, Nat.add_assoc]
  exact h (d + n)

theorem holds_congr_of_sameFrom {word' : Nat → State} (f : Formula) {i i' : Nat}
    (h : SameFrom word word' i i') : f.Holds word i ↔ f.Holds word' i' := by
  induction f using induction_on_children generalizing i i' with
  | step f ih =>
      have hnow : word i = word' i' := h 0
      cases f with
      | const value => rw [holds_const, holds_const]
      | literal name negated => rw [holds_literal, holds_literal, hnow]
      | atom left op right => rw [holds_atom, holds_atom, hnow]
      | not body =>
          rw [holds_not, holds_not, ih body (by simp [children]) h]
      | next body =>
          rw [holds_next, holds_next]
          exact ih body (by simp [children]) (h.add 1)
      | always body =>
          have hbody := fun d => ih body (by simp [children]) (h.add d)
          rw [holds_always_iff_untilFrom, holds_always_iff_untilFrom]
          exact not_congr (untilFrom_congr (fun _ => Iff.rfl) (fun d => not_congr (hbody d)))
      | eventually body =>
          have hbody := fun d => ih body (by simp [children]) (h.add d)
          rw [holds_eventually_iff_untilFrom, holds_eventually_iff_untilFrom]
          exact untilFrom_congr (fun _ => Iff.rfl) hbody
      | untl left right =>
          have hleft := fun d => ih left (by simp [children]) (h.add d)
          have hright := fun d => ih right (by simp [children]) (h.add d)
          rw [holds_untl_iff_untilFrom, holds_untl_iff_untilFrom]
          exact untilFrom_congr hleft hright
      | release left right =>
          have hleft := fun d => ih left (by simp [children]) (h.add d)
          have hright := fun d => ih right (by simp [children]) (h.add d)
          rw [holds_release_iff_untilFrom, holds_release_iff_untilFrom]
          exact not_congr (untilFrom_congr (fun d => not_congr (hleft d))
            (fun d => not_congr (hright d)))
      | junction k fs =>
          cases k with
          | and =>
              rw [holds_and, holds_and]
              exact forall₂_congr fun f hf => ih f hf h
          | or =>
              rw [holds_or, holds_or]
              exact exists_congr fun f => and_congr_right fun hf => ih f hf h

end Formula
end LinearTemporal

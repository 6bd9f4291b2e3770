import Mathlib.Order.Defs.Unbundled
import LinearTemporal.Proofs.CanonicalShape

/-!
# The canonical order in words

What precedes what, stated without the comparison that is computed: a kind that is declared
earlier comes first, and within one kind the first parts that differ decide, where operand
lists are compared lexicographically.  The comparisons are total orders in which only equals
compare as equal.  So a junction that is built lists its operands in one way only, and is
determined by which they are.
-/

namespace LinearTemporal

/-!
## What precedes what

Of two terms, or two formulas, of one kind the one precedes whose first differing part
precedes that of the other.
-/

namespace Term

inductive Precedes : Term → Term → Prop where
  | kind {s t : Term} : s.rank < t.rank → Precedes s t
  | var {a b : String} : a < b → Precedes (var a) (var b)
  | int {a b : Int64} : a < b → Precedes (int a) (int b)
  | neg {a b : Term} : Precedes a b → Precedes (neg a) (neg b)
  | op {p q : Arithmetic} {a b c d : Term} :
      p.rank < q.rank → Precedes (binary p a b) (binary q c d)
  | left {p : Arithmetic} {a b c d : Term} :
      Precedes a c → Precedes (binary p a b) (binary p c d)
  | right {p : Arithmetic} {a b d : Term} :
      Precedes b d → Precedes (binary p a b) (binary p a d)

end Term

namespace Formula

inductive Precedes : Formula → Formula → Prop where
  | kind {f g : Formula} : f.rank < g.rank → Precedes f g
  | const : Precedes (const false) (const true)
  | name {a b : String} {p q : Bool} : a < b → Precedes (literal a p) (literal b q)
  | sign {a : String} : Precedes (literal a false) (literal a true)
  | atomLeft {a b c d : Term} {p q : Comparison} :
      a.Precedes c → Precedes (atom a p b) (atom c q d)
  | atomOp {a b d : Term} {p q : Comparison} :
      p.rank < q.rank → Precedes (atom a p b) (atom a q d)
  | atomRight {a b d : Term} {p : Comparison} :
      b.Precedes d → Precedes (atom a p b) (atom a p d)
  | not {a b : Formula} : Precedes a b → Precedes (not a) (not b)
  | next {a b : Formula} : Precedes a b → Precedes (next a) (next b)
  | always {a b : Formula} : Precedes a b → Precedes (always a) (always b)
  | eventually {a b : Formula} : Precedes a b → Precedes (eventually a) (eventually b)
  | untlLeft {a b c d : Formula} : Precedes a c → Precedes (untl a b) (untl c d)
  | untlRight {a b d : Formula} : Precedes b d → Precedes (untl a b) (untl a d)
  | releaseLeft {a b c d : Formula} : Precedes a c → Precedes (release a b) (release c d)
  | releaseRight {a b d : Formula} : Precedes b d → Precedes (release a b) (release a d)
  | connective {k l : Connective} {fs gs : List Formula} :
      k.rank < l.rank → Precedes (junction k fs) (junction l gs)
  | operands {k : Connective} {fs gs : List Formula} :
      List.Lex Precedes fs gs → Precedes (junction k fs) (junction k gs)

end Formula

/-!
## The comparison finds what precedes

Among different kinds the kind decides, and within a kind each constructor of the
relation is one way in which the parts can first differ.
-/

theorem compare_string_eq_lt_iff {a b : String} : compare a b = .lt ↔ a < b :=
  compareOfLessAndEq_eq_lt

namespace Term

theorem Precedes.rank_le {s t : Term} (h : s.Precedes t) : s.rank ≤ t.rank := by
  cases h with
  | kind h => exact Nat.le_of_lt h
  | _ => exact Nat.le_refl _

theorem order_eq_lt_iff_of_rank_ne {s t : Term} (hne : s.rank ≠ t.rank) :
    s.order t = .lt ↔ s.Precedes t := by
  rw [ranksFirst hne, Nat.compare_eq_lt]
  exact ⟨Precedes.kind, fun h => Nat.lt_of_le_of_ne h.rank_le hne⟩

theorem order_eq_lt_iff {s t : Term} : s.order t = .lt ↔ s.Precedes t := by
  induction s generalizing t with
  | var a =>
      cases t with
      | var b =>
          rw [order, compare_string_eq_lt_iff]
          constructor
          · exact Precedes.var
          · intro h
            cases h with
            | kind h => exact absurd h (Nat.lt_irrefl _)
            | var h => exact h
      | _ => exact order_eq_lt_iff_of_rank_ne (by simp [rank])
  | int a =>
      cases t with
      | int b =>
          rw [order, Std.compare_eq_lt]
          constructor
          · exact Precedes.int
          · intro h
            cases h with
            | kind h => exact absurd h (Nat.lt_irrefl _)
            | int h => exact h
      | _ => exact order_eq_lt_iff_of_rank_ne (by simp [rank])
  | neg a ih =>
      cases t with
      | neg b =>
          rw [order, ih]
          constructor
          · exact Precedes.neg
          · intro h
            cases h with
            | kind h => exact absurd h (Nat.lt_irrefl _)
            | neg h => exact h
      | _ => exact order_eq_lt_iff_of_rank_ne (by simp [rank])
  | binary p a b iha ihb =>
      cases t with
      | binary q c d =>
          have hop : compare p q = .lt ↔ p.rank < q.rank := Nat.compare_eq_lt
          rw [order, Ordering.then_eq_lt, Ordering.then_eq_lt, hop, Arithmetic.compare_eq_iff, iha,
            order_eq_iff, ihb]
          constructor
          · rintro (h | ⟨rfl, h | ⟨rfl, h⟩⟩)
            · exact Precedes.op h
            · exact Precedes.left h
            · exact Precedes.right h
          · intro h
            cases h with
            | kind h => exact absurd h (Nat.lt_irrefl _)
            | op h => exact Or.inl h
            | left h => exact Or.inr ⟨rfl, Or.inl h⟩
            | right h => exact Or.inr ⟨rfl, Or.inr ⟨rfl, h⟩⟩
      | _ => exact order_eq_lt_iff_of_rank_ne (by simp [rank])

end Term

namespace Formula

theorem Precedes.rank_le {f g : Formula} (h : f.Precedes g) : f.rank ≤ g.rank := by
  cases h with
  | kind h => exact Nat.le_of_lt h
  | _ => exact Nat.le_refl _

theorem order_eq_lt_iff_of_rank_ne {f g : Formula} (hne : f.rank ≠ g.rank) :
    f.order g = .lt ↔ f.Precedes g := by
  rw [ranksFirst hne, Nat.compare_eq_lt]
  exact ⟨Precedes.kind, fun h => Nat.lt_of_le_of_ne h.rank_le hne⟩

theorem IsUnary.precedes_iff {op : Formula → Formula} (hop : IsUnary op) {a b : Formula} :
    (op a).Precedes (op b) ↔ a.Precedes b := by
  constructor
  · intro h
    cases hop
    all_goals
      cases h with
      | kind h => exact absurd h (Nat.lt_irrefl _)
      | _ => assumption
  · intro h
    cases hop with
    | not => exact Precedes.not h
    | next => exact Precedes.next h
    | always => exact Precedes.always h
    | eventually => exact Precedes.eventually h

theorem IsUnary.order_eq_lt_iff {op : Formula → Formula} (hop : IsUnary op) {a g : Formula}
    (ih : ∀ {b : Formula}, a.order b = .lt ↔ a.Precedes b) :
    (op a).order g = .lt ↔ (op a).Precedes g := by
  by_cases hrank : (op a).rank = g.rank
  · rcases hop.eq_of_rank_eq hrank with ⟨b, rfl⟩
    rw [hop.order_eq, hop.precedes_iff, ih]
  · exact order_eq_lt_iff_of_rank_ne hrank

theorem IsBinary.precedes_iff {op : Formula → Formula → Formula} (hop : IsBinary op)
    {a x b y : Formula} :
    (op a x).Precedes (op b y) ↔ a.Precedes b ∨ a = b ∧ x.Precedes y := by
  constructor
  · intro h
    cases hop with
    | untl =>
        cases h with
        | kind h => exact absurd h (Nat.lt_irrefl _)
        | untlLeft h => exact Or.inl h
        | untlRight h => exact Or.inr ⟨rfl, h⟩
    | release =>
        cases h with
        | kind h => exact absurd h (Nat.lt_irrefl _)
        | releaseLeft h => exact Or.inl h
        | releaseRight h => exact Or.inr ⟨rfl, h⟩
  · rintro (h | ⟨rfl, h⟩)
    · cases hop with
      | untl => exact Precedes.untlLeft h
      | release => exact Precedes.releaseLeft h
    · cases hop with
      | untl => exact Precedes.untlRight h
      | release => exact Precedes.releaseRight h

theorem IsBinary.order_eq_lt_iff {op : Formula → Formula → Formula} (hop : IsBinary op)
    {a x g : Formula} (iha : ∀ {b : Formula}, a.order b = .lt ↔ a.Precedes b)
    (ihx : ∀ {y : Formula}, x.order y = .lt ↔ x.Precedes y) :
    (op a x).order g = .lt ↔ (op a x).Precedes g := by
  by_cases hrank : (op a x).rank = g.rank
  · rcases hop.eq_of_rank_eq hrank with ⟨b, y, rfl⟩
    rw [hop.order_eq, Ordering.then_eq_lt, order_eq_iff, hop.precedes_iff, iha, ihx]
  · exact order_eq_lt_iff_of_rank_ne hrank

mutual

theorem order_eq_lt_iff : ∀ {f g : Formula}, f.order g = .lt ↔ f.Precedes g
  | const a, g => by
      cases g with
      | const b =>
          constructor
          · intro h
            cases a <;> cases b <;> cases h
            exact Precedes.const
          · intro h
            cases h with
            | kind h => exact absurd h (Nat.lt_irrefl _)
            | const => rfl
      | _ => exact order_eq_lt_iff_of_rank_ne (by simp [rank])
  | literal a p, g => by
      cases g with
      | literal b q =>
          rw [order, Ordering.then_eq_lt, compare_string_eq_lt_iff, Std.compare_eq_iff_eq]
          constructor
          · rintro (h | ⟨rfl, h⟩)
            · exact Precedes.name h
            · cases p <;> cases q <;> cases h
              exact Precedes.sign
          · intro h
            cases h with
            | kind h => exact absurd h (Nat.lt_irrefl _)
            | name h => exact Or.inl h
            | sign => exact Or.inr ⟨rfl, rfl⟩
      | _ => exact order_eq_lt_iff_of_rank_ne (by simp [rank])
  | atom a p b, g => by
      cases g with
      | atom c q d =>
          have hterm : ∀ {s t : Term}, compare s t = .lt ↔ s.Precedes t := Term.order_eq_lt_iff
          have hequal : compare a c = .eq ↔ a = c := Term.order_eq_iff
          have hop : compare p q = .lt ↔ p.rank < q.rank := Nat.compare_eq_lt
          rw [order, Ordering.then_eq_lt, Ordering.then_eq_lt, hterm, hequal, hop,
            Comparison.compare_eq_iff, hterm]
          constructor
          · rintro (h | ⟨rfl, h | ⟨rfl, h⟩⟩)
            · exact Precedes.atomLeft h
            · exact Precedes.atomOp h
            · exact Precedes.atomRight h
          · intro h
            cases h with
            | kind h => exact absurd h (Nat.lt_irrefl _)
            | atomLeft h => exact Or.inl h
            | atomOp h => exact Or.inr ⟨rfl, Or.inl h⟩
            | atomRight h => exact Or.inr ⟨rfl, Or.inr ⟨rfl, h⟩⟩
      | _ => exact order_eq_lt_iff_of_rank_ne (by simp [rank])
  | not a, _ => IsUnary.not.order_eq_lt_iff (order_eq_lt_iff (f := a))
  | next a, _ => IsUnary.next.order_eq_lt_iff (order_eq_lt_iff (f := a))
  | always a, _ => IsUnary.always.order_eq_lt_iff (order_eq_lt_iff (f := a))
  | eventually a, _ => IsUnary.eventually.order_eq_lt_iff (order_eq_lt_iff (f := a))
  | untl a b, _ =>
      IsBinary.untl.order_eq_lt_iff (order_eq_lt_iff (f := a)) (order_eq_lt_iff (f := b))
  | release a b, _ =>
      IsBinary.release.order_eq_lt_iff (order_eq_lt_iff (f := a)) (order_eq_lt_iff (f := b))
  | junction k fs, g => by
      cases g with
      | junction l gs =>
          have hconnective : compare k l = .lt ↔ k.rank < l.rank := Nat.compare_eq_lt
          rw [order, Ordering.then_eq_lt, hconnective, Connective.compare_eq_iff,
            orderOperands_eq_lt_iff (l := fs)]
          constructor
          · rintro (h | ⟨rfl, h⟩)
            · exact Precedes.connective h
            · exact Precedes.operands h
          · intro h
            cases h with
            | kind h => exact absurd h (Nat.lt_irrefl _)
            | connective h => exact Or.inl h
            | operands h => exact Or.inr ⟨rfl, h⟩
      | _ => exact order_eq_lt_iff_of_rank_ne (by simp [rank])

theorem orderOperands_eq_lt_iff :
    ∀ {l m : List Formula}, orderOperands l m = .lt ↔ List.Lex Precedes l m
  | [], [] => by
      constructor
      · intro h
        cases h
      · intro h
        cases h
  | [], _ :: _ => ⟨fun _ => List.Lex.nil, fun _ => rfl⟩
  | _ :: _, [] => by
      constructor
      · intro h
        cases h
      · intro h
        cases h
  | f :: fs, g :: gs => by
      rw [orderOperands, Ordering.then_eq_lt, order_eq_lt_iff (f := f), order_eq_iff,
        orderOperands_eq_lt_iff (l := fs), List.cons_lex_cons_iff]

end

end Formula

/-!
## Total orders

A comparison that is transitive gives a linear order if it calls nothing equal but
equals.
-/

/-- A comparison that puts all of a type in one line, and calls nothing equal but equals. -/
structure OrdersTotally {α : Type} (cmp : α → α → Ordering) : Prop where
  linear : IsLinearOrder α (fun a b => (cmp a b).isLE)
  eq_iff : ∀ a b, cmp a b = .eq ↔ a = b
  swap : ∀ a b, cmp b a = (cmp a b).swap

theorem ordersTotally_of_transCmp {α : Type} {cmp : α → α → Ordering} [Std.TransCmp cmp]
    (heq : ∀ a b, cmp a b = .eq ↔ a = b) : OrdersTotally cmp where
  linear :=
    { refl := fun a => by rw [(heq a a).mpr rfl]; rfl
      trans := fun _ _ _ => Std.TransCmp.isLE_trans
      antisymm := fun a b hab hba => (heq a b).mp (Std.OrientedCmp.isLE_antisymm hab hba)
      total := fun a b => by
        have hswap : cmp b a = (cmp a b).swap := Std.OrientedCmp.eq_swap
        rw [hswap]
        cases cmp a b with
        | lt => exact Or.inl rfl
        | eq => exact Or.inl rfl
        | gt => exact Or.inr rfl }
  eq_iff := heq
  swap := fun _ _ => Std.OrientedCmp.eq_swap

namespace Formula

/-!
## Junctions that are built

Building makes every formula in canonical shape, and no other.
-/

/-- A formula whose junctions all come from `join`. -/
inductive IsBuilt : Formula → Prop where
  | const (value : Bool) : IsBuilt (const value)
  | literal (name : String) (negated : Bool) : IsBuilt (literal name negated)
  | atom (left : Term) (op : Comparison) (right : Term) : IsBuilt (atom left op right)
  | not {body : Formula} : IsBuilt body → IsBuilt (not body)
  | next {body : Formula} : IsBuilt body → IsBuilt (next body)
  | always {body : Formula} : IsBuilt body → IsBuilt (always body)
  | eventually {body : Formula} : IsBuilt body → IsBuilt (eventually body)
  | untl {left right : Formula} : IsBuilt left → IsBuilt right → IsBuilt (untl left right)
  | release {left right : Formula} : IsBuilt left → IsBuilt right → IsBuilt (release left right)
  | join {k : Connective} {fs : List Formula} : (∀ f ∈ fs, IsBuilt f) → IsBuilt (join k fs)

theorem IsBuilt.isValid {f : Formula} (h : f.IsBuilt) : f.IsValid := by
  induction h with
  | const | literal | atom => rfl
  | not _ ih | next _ ih | always _ ih | eventually _ ih => exact ih
  | untl _ _ ihl ihr => exact isValid_untl.mpr ⟨ihl, ihr⟩
  | release _ _ ihl ihr => exact isValid_release.mpr ⟨ihl, ihr⟩
  | join _ ih => exact isValid_join ih

theorem isBuilt_iff_isValid {f : Formula} : f.IsBuilt ↔ f.IsValid := by
  refine ⟨IsBuilt.isValid, fun h => ?_⟩
  induction f using induction_on_children with
  | step f ih =>
      have hparts : ∀ g ∈ f.children, g.IsBuilt := fun g hg => ih g hg (h.children hg)
      cases f with
      | const value => exact IsBuilt.const value
      | literal name negated => exact IsBuilt.literal name negated
      | atom left op right => exact IsBuilt.atom left op right
      | not body => exact IsBuilt.not (hparts body (by simp [children]))
      | next body => exact IsBuilt.next (hparts body (by simp [children]))
      | always body => exact IsBuilt.always (hparts body (by simp [children]))
      | eventually body => exact IsBuilt.eventually (hparts body (by simp [children]))
      | untl left right =>
          exact IsBuilt.untl (hparts left (by simp [children])) (hparts right (by simp [children]))
      | release left right =>
          exact IsBuilt.release (hparts left (by simp [children]))
            (hparts right (by simp [children]))
      | junction k fs =>
          rw [← join_eq_junction h]
          exact IsBuilt.join hparts

theorem isAscending_of_isBuilt {f : Formula} (hf : f.IsBuilt) {k : Connective}
    {fs : List Formula} (h : (junction k fs).OccursIn f) : Ascending.IsAscending fs :=
  (isValid_junction.mp (hf.isValid.of_occursIn h)).2.1

/-- The canonical order is the one that `Precedes` describes, for terms and for formulas.  It
and the orders of the parts are total, and equals are all that compare as equal.  Wherever a
junction occurs in a formula that is built, its operands ascend strictly in this order, and two
such junctions with the same connective and the same operands are the same formula. -/
theorem order_canonical :
    OrdersTotally order ∧ OrdersTotally Term.order ∧
    OrdersTotally (compare : Comparison → Comparison → Ordering) ∧
    OrdersTotally (compare : Arithmetic → Arithmetic → Ordering) ∧
    OrdersTotally (compare : String → String → Ordering) ∧
    (∀ f g : Formula, f.order g = .lt ↔ f.Precedes g) ∧
    (∀ s t : Term, s.order t = .lt ↔ s.Precedes t) ∧
    (∀ a b : String, compare a b = .lt ↔ a < b) ∧
    (∀ f : Formula, f.IsBuilt → ∀ k fs, (junction k fs).OccursIn f →
      fs.Pairwise (fun g h => g.order h = .lt)) ∧
    ∀ f f' : Formula, f.IsBuilt → f'.IsBuilt → ∀ k fs gs, (junction k fs).OccursIn f →
      (junction k gs).OccursIn f' → (∀ g, g ∈ fs ↔ g ∈ gs) → junction k fs = junction k gs := by
  refine ⟨?_, ?_, ?_, ?_, ?_, fun _ _ => order_eq_lt_iff, fun _ _ => Term.order_eq_lt_iff,
    fun _ _ => compare_string_eq_lt_iff, ?_, ?_⟩
  · have htrans : Std.TransCmp order := inferInstanceAs (Std.TransOrd Formula)
    exact ordersTotally_of_transCmp (fun _ _ => order_eq_iff)
  · have htrans : Std.TransCmp Term.order := inferInstanceAs (Std.TransOrd Term)
    exact ordersTotally_of_transCmp (fun _ _ => Term.order_eq_iff)
  · exact ordersTotally_of_transCmp (fun _ _ => Comparison.compare_eq_iff)
  · exact ordersTotally_of_transCmp (fun _ _ => Arithmetic.compare_eq_iff)
  · exact ordersTotally_of_transCmp (fun _ _ => Std.compare_eq_iff_eq)
  · intro f hf k fs h
    exact isAscending_of_isBuilt hf h
  · intro f f' hf hf' k fs gs h h' hsame
    rw [(isAscending_of_isBuilt hf h).ext (isAscending_of_isBuilt hf' h') hsame]

theorem order_canonical_shuffled :
    let p := proposition "p"
    let q := proposition "q"
    let xs := [next p, q, p]
    let ys := [q, next p, q, p]
    let fs := joinOperands .or xs
    let gs := joinOperands .or ys
    (disj xs).IsBuilt ∧ (always (disj ys)).IsBuilt ∧ (junction .or fs).OccursIn (disj xs) ∧
      (junction .or gs).OccursIn (always (disj ys)) ∧ (∀ g, g ∈ fs ↔ g ∈ gs) ∧
      fs.Pairwise (fun g h => g.order h = .lt) ∧ junction .or fs = junction .or gs := by
  intro p q xs ys fs gs
  have hxs : (disj xs).IsBuilt := isBuilt_iff_isValid.mpr (by decide)
  have hys : (always (disj ys)).IsBuilt := isBuilt_iff_isValid.mpr (by decide)
  have hfs : (junction .or fs).OccursIn (disj xs) := OccursIn.root
  have hgs : (junction .or gs).OccursIn (always (disj ys)) :=
    OccursIn.part (List.mem_singleton_self _) OccursIn.root
  have hsame : ∀ g, g ∈ fs ↔ g ∈ gs := fun _ => Iff.rfl
  rcases order_canonical with ⟨_, _, _, _, _, _, _, _, hascending, hdetermined⟩
  exact ⟨hxs, hys, hfs, hgs, hsame, hascending _ hxs _ _ hfs,
    hdetermined _ _ hxs hys _ _ _ hfs hgs hsame⟩

end Formula
end LinearTemporal

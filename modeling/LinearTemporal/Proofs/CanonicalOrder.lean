import LinearTemporal.Formula.Order
import LinearTemporal.Proofs.Parts

/-!
# The canonical order is a strict total order

The comparisons of comparisons, operations, connectives, terms and formulas are
lawful: swapping the sides reverses the outcome, only equals compare as equal,
and the strict part is transitive.  The ascending lists over formulas rest on
these instances.
-/

namespace LinearTemporal

/-!
Where only equals compare as equal, transitivity of the strict part is all that is left
to show.  Ranks are compared as numbers, which settles it for the types without parts.
-/

theorem transCmp_of_lt_trans {α : Type} {cmp : α → α → Ordering}
    (hswap : ∀ a b, cmp a b = (cmp b a).swap)
    (heq : ∀ {a b}, cmp a b = .eq → a = b)
    (htrans : ∀ {a b c}, cmp a b = .lt → cmp b c = .lt → cmp a c = .lt) :
    Std.TransCmp cmp where
  eq_swap := hswap _ _
  isLE_trans := by
    intro a b c hab hbc
    cases hx : cmp a b with
    | gt =>
        rw [hx] at hab
        cases hab
    | eq =>
        rw [heq hx]
        exact hbc
    | lt =>
        cases hy : cmp b c with
        | gt =>
            rw [hy] at hbc
            cases hbc
        | eq =>
            rw [← heq hy, hx]
            rfl
        | lt =>
            rw [htrans hx hy]
            rfl

theorem transCmp_of_rank {α : Type} {cmp : α → α → Ordering} (rank : α → Nat)
    (hcmp : ∀ a b, cmp a b = compare (rank a) (rank b)) : Std.TransCmp cmp where
  eq_swap := by
    intro a b
    rw [hcmp a b, hcmp b a]
    exact Std.OrientedOrd.eq_swap
  isLE_trans := by
    intro a b c hab hbc
    rw [hcmp] at hab hbc ⊢
    exact Std.TransOrd.isLE_trans hab hbc

instance : Std.TransOrd Comparison :=
  transCmp_of_rank Comparison.rank (fun _ _ => rfl)

instance : Std.TransOrd Arithmetic :=
  transCmp_of_rank Arithmetic.rank (fun _ _ => rfl)

instance : Std.TransOrd Connective :=
  transCmp_of_rank Connective.rank (fun _ _ => rfl)

theorem compare_lt_trans {α : Type} [Ord α] [Std.TransOrd α] {a b c : α}
    (hab : compare a b = .lt) (hbc : compare b c = .lt) : compare a c = .lt :=
  Std.TransCmp.lt_trans hab hbc

/-- A lexicographic comparison is transitive if its parts are; `fst` and `snd` stand
for what the later parts say about the first two elements and the last two. -/
theorem then_lt_trans {α : Type} {cmp : α → α → Ordering} {a b c : α}
    {fst snd both : Ordering}
    (heq : ∀ {a b}, cmp a b = .eq ↔ a = b)
    (hhead : cmp a b = .lt → cmp b c = .lt → cmp a c = .lt)
    (htail : fst = .lt → snd = .lt → both = .lt)
    (hab : (cmp a b).then fst = .lt) (hbc : (cmp b c).then snd = .lt) :
    (cmp a c).then both = .lt := by
  rw [Ordering.then_eq_lt, heq] at hab hbc ⊢
  rcases hab with hab | ⟨rfl, hfst⟩
  · rcases hbc with hbc | ⟨rfl, _⟩
    · exact Or.inl (hhead hab hbc)
    · exact Or.inl hab
  · rcases hbc with hbc | ⟨rfl, hsnd⟩
    · exact Or.inl hbc
    · exact Or.inr ⟨rfl, htail hfst hsnd⟩

/-!
## Comparing ranks first

Terms and formulas with different roots are compared by the ranks of their roots,
so the inductions below only have to look at two of one kind.
-/

/-- The rank decides wherever it differs. -/
def RanksFirst {α : Type} (rank : α → Nat) (cmp : α → α → Ordering) : Prop :=
  ∀ {a b}, rank a ≠ rank b → cmp a b = compare (rank a) (rank b)

namespace RanksFirst

variable {α : Type} {rank : α → Nat} {cmp : α → α → Ordering} {a b c : α}

theorem rank_le (h : RanksFirst rank cmp) (hlt : cmp a b = .lt) : rank a ≤ rank b := by
  by_cases hrank : rank a = rank b
  · exact Nat.le_of_eq hrank
  · rw [h hrank] at hlt
    exact Nat.le_of_lt (Nat.compare_eq_lt.mp hlt)

theorem swap (h : RanksFirst rank cmp) (hne : rank a ≠ rank b) : cmp a b = (cmp b a).swap := by
  rw [h hne, h (Ne.symm hne)]
  exact Std.OrientedOrd.eq_swap

theorem rank_between (h : RanksFirst rank cmp) (hab : cmp a b = .lt) (hbc : cmp b c = .lt)
    (hac : rank a = rank c) : rank b = rank a := by
  have hle := h.rank_le hab
  have hle' := h.rank_le hbc
  omega

theorem lt_trans (h : RanksFirst rank cmp) (hac : rank a ≠ rank c)
    (hab : cmp a b = .lt) (hbc : cmp b c = .lt) : cmp a c = .lt := by
  have hle := h.rank_le hab
  have hle' := h.rank_le hbc
  rw [h hac]
  exact Nat.compare_eq_lt.mpr (by omega)

end RanksFirst

/-!
## Terms

By induction over the first term, where the others are of the same kind or the ranks
decide.
-/

namespace Term

theorem ranksFirst : RanksFirst rank order := by
  intro a b
  cases a <;> cases b <;> simp [rank, order]

theorem order_swap (a b : Term) : a.order b = (b.order a).swap := by
  induction a generalizing b with
  | var a =>
      cases b with
      | var b => exact Std.OrientedOrd.eq_swap
      | _ => exact ranksFirst.swap (by simp [rank])
  | int a =>
      cases b with
      | int b => exact Std.OrientedOrd.eq_swap
      | _ => exact ranksFirst.swap (by simp [rank])
  | neg a ih =>
      cases b with
      | neg b => exact ih b
      | _ => exact ranksFirst.swap (by simp [rank])
  | binary p a b iha ihb =>
      cases b with
      | binary q c d =>
          simp only [order, Ordering.swap_then]
          rw [← iha c, ← ihb d, ← Std.OrientedOrd.eq_swap (a := p)]
      | _ => exact ranksFirst.swap (by simp [rank])

theorem order_lt_trans {a b c : Term} (hab : a.order b = .lt) (hbc : b.order c = .lt) :
    a.order c = .lt := by
  induction a generalizing b c with
  | var a =>
      cases c with
      | var c =>
          cases b with
          | var b => exact compare_lt_trans (a := a) hab hbc
          | _ => exact absurd (ranksFirst.rank_between hab hbc rfl) (by simp [rank])
      | _ => exact ranksFirst.lt_trans (by simp [rank]) hab hbc
  | int a =>
      cases c with
      | int c =>
          cases b with
          | int b => exact compare_lt_trans (a := a) hab hbc
          | _ => exact absurd (ranksFirst.rank_between hab hbc rfl) (by simp [rank])
      | _ => exact ranksFirst.lt_trans (by simp [rank]) hab hbc
  | neg a ih =>
      cases c with
      | neg c =>
          cases b with
          | neg b => exact ih hab hbc
          | _ => exact absurd (ranksFirst.rank_between hab hbc rfl) (by simp [rank])
      | _ => exact ranksFirst.lt_trans (by simp [rank]) hab hbc
  | binary p a x iha ihx =>
      cases c with
      | binary r c z =>
          cases b with
          | binary q b y =>
              exact then_lt_trans Arithmetic.compare_eq_iff Std.TransCmp.lt_trans
                (then_lt_trans order_eq_iff iha ihx) hab hbc
          | _ => exact absurd (ranksFirst.rank_between hab hbc rfl) (by simp [rank])
      | _ => exact ranksFirst.lt_trans (by simp [rank]) hab hbc

instance : Std.TransOrd Term :=
  transCmp_of_lt_trans order_swap order_eq_iff.mp order_lt_trans

end Term

/-!
## Formulas

Formulas and lists of operands are compared in terms of each other, so the inductions go
over both.
-/

namespace Formula

theorem ranksFirst : RanksFirst rank order := by
  intro f g
  cases f <;> cases g <;> simp [rank, order]

/-!
## Formulas with one operator at the root

An operator with one part, or with two, is compared with formulas of its own kind by the
parts, and the ranks decide the rest.  So what is known about the comparisons of the
parts carries over in the same way for all of them.
-/

namespace IsUnary

variable {op : Formula → Formula} (hop : IsUnary op)

include hop

theorem order_eq (a b : Formula) : (op a).order (op b) = a.order b := by
  cases hop <;> rw [order]

theorem eq_of_rank_eq {a g : Formula} (h : (op a).rank = g.rank) : ∃ b, g = op b := by
  cases hop <;> cases g <;> first | exact ⟨_, rfl⟩ | cases h

theorem order_swap {a : Formula} (ih : ∀ b, a.order b = (b.order a).swap) (g : Formula) :
    (op a).order g = (g.order (op a)).swap := by
  by_cases hrank : (op a).rank = g.rank
  · rcases hop.eq_of_rank_eq hrank with ⟨b, rfl⟩
    rw [hop.order_eq, hop.order_eq]
    exact ih b
  · exact ranksFirst.swap hrank

theorem order_lt_trans {a : Formula}
    (ih : ∀ {b c : Formula}, a.order b = .lt → b.order c = .lt → a.order c = .lt) {g h : Formula}
    (hag : (op a).order g = .lt) (hgh : g.order h = .lt) : (op a).order h = .lt := by
  by_cases hrank : (op a).rank = h.rank
  · rcases hop.eq_of_rank_eq hrank with ⟨c, rfl⟩
    rcases hop.eq_of_rank_eq (ranksFirst.rank_between hag hgh hrank).symm with ⟨b, rfl⟩
    rw [hop.order_eq] at hag hgh ⊢
    exact ih hag hgh
  · exact ranksFirst.lt_trans hrank hag hgh

end IsUnary

namespace IsBinary

variable {op : Formula → Formula → Formula} (hop : IsBinary op)

include hop

theorem order_eq (a x b y : Formula) :
    (op a x).order (op b y) = (a.order b).then (x.order y) := by
  cases hop <;> rw [order]

theorem eq_of_rank_eq {a x g : Formula} (h : (op a x).rank = g.rank) : ∃ b y, g = op b y := by
  cases hop <;> cases g <;> first | exact ⟨_, _, rfl⟩ | cases h

theorem order_swap {a x : Formula} (iha : ∀ b, a.order b = (b.order a).swap)
    (ihx : ∀ y, x.order y = (y.order x).swap) (g : Formula) :
    (op a x).order g = (g.order (op a x)).swap := by
  by_cases hrank : (op a x).rank = g.rank
  · rcases hop.eq_of_rank_eq hrank with ⟨b, y, rfl⟩
    rw [hop.order_eq, hop.order_eq, Ordering.swap_then, ← iha b, ← ihx y]
  · exact ranksFirst.swap hrank

theorem order_lt_trans {a x : Formula}
    (iha : ∀ {b c : Formula}, a.order b = .lt → b.order c = .lt → a.order c = .lt)
    (ihx : ∀ {y z : Formula}, x.order y = .lt → y.order z = .lt → x.order z = .lt)
    {g h : Formula} (hag : (op a x).order g = .lt) (hgh : g.order h = .lt) :
    (op a x).order h = .lt := by
  by_cases hrank : (op a x).rank = h.rank
  · rcases hop.eq_of_rank_eq hrank with ⟨c, z, rfl⟩
    rcases hop.eq_of_rank_eq (ranksFirst.rank_between hag hgh hrank).symm with ⟨b, y, rfl⟩
    rw [hop.order_eq] at hag hgh ⊢
    exact then_lt_trans order_eq_iff iha ihx hag hgh
  · exact ranksFirst.lt_trans hrank hag hgh

end IsBinary

/-!
## The order of formulas and of operands

What is left are the leaves and the junctions, and the lists of operands beside them.
-/

mutual

theorem order_swap : ∀ f g : Formula, f.order g = (g.order f).swap
  | const a, g => by
      cases g with
      | const b => exact Std.OrientedOrd.eq_swap
      | _ => exact ranksFirst.swap (by simp [rank])
  | literal a p, g => by
      cases g with
      | literal b q =>
          simp only [order, Ordering.swap_then]
          rw [← Std.OrientedOrd.eq_swap (a := a), ← Std.OrientedOrd.eq_swap (a := p)]
      | _ => exact ranksFirst.swap (by simp [rank])
  | atom a p b, g => by
      cases g with
      | atom c q d =>
          simp only [order, Ordering.swap_then]
          rw [← Std.OrientedOrd.eq_swap (a := a), ← Std.OrientedOrd.eq_swap (a := p),
            ← Std.OrientedOrd.eq_swap (a := b)]
      | _ => exact ranksFirst.swap (by simp [rank])
  | not a, g => IsUnary.not.order_swap (order_swap a) g
  | next a, g => IsUnary.next.order_swap (order_swap a) g
  | always a, g => IsUnary.always.order_swap (order_swap a) g
  | eventually a, g => IsUnary.eventually.order_swap (order_swap a) g
  | untl a b, g => IsBinary.untl.order_swap (order_swap a) (order_swap b) g
  | release a b, g => IsBinary.release.order_swap (order_swap a) (order_swap b) g
  | junction k fs, g => by
      cases g with
      | junction l gs =>
          simp only [order, Ordering.swap_then]
          rw [← Std.OrientedOrd.eq_swap (a := k), ← orderOperands_swap fs gs]
      | _ => exact ranksFirst.swap (by simp [rank])

theorem orderOperands_swap :
    ∀ fs gs : List Formula, orderOperands fs gs = (orderOperands gs fs).swap
  | [], [] => rfl
  | [], _ :: _ => rfl
  | _ :: _, [] => rfl
  | f :: fs, g :: gs => by
      simp only [orderOperands, Ordering.swap_then]
      rw [← order_swap f g, ← orderOperands_swap fs gs]

end

mutual

theorem order_lt_trans :
    ∀ {f g h : Formula}, f.order g = .lt → g.order h = .lt → f.order h = .lt
  | const a, g, h, hfg, hgh => by
      cases h with
      | const c =>
          cases g with
          | const b => exact compare_lt_trans (a := a) hfg hgh
          | _ => exact absurd (ranksFirst.rank_between hfg hgh rfl) (by simp [rank])
      | _ => exact ranksFirst.lt_trans (by simp [rank]) hfg hgh
  | literal a p, g, h, hfg, hgh => by
      cases h with
      | literal c r =>
          cases g with
          | literal b q =>
              exact then_lt_trans Std.LawfulEqOrd.compare_eq_iff_eq
                Std.TransCmp.lt_trans Std.TransCmp.lt_trans hfg hgh
          | _ => exact absurd (ranksFirst.rank_between hfg hgh rfl) (by simp [rank])
      | _ => exact ranksFirst.lt_trans (by simp [rank]) hfg hgh
  | atom a p x, g, h, hfg, hgh => by
      cases h with
      | atom c r z =>
          cases g with
          | atom b q y =>
              exact then_lt_trans Term.order_eq_iff Std.TransCmp.lt_trans
                (then_lt_trans Comparison.compare_eq_iff Std.TransCmp.lt_trans
                  Std.TransCmp.lt_trans) hfg hgh
          | _ => exact absurd (ranksFirst.rank_between hfg hgh rfl) (by simp [rank])
      | _ => exact ranksFirst.lt_trans (by simp [rank]) hfg hgh
  | not a, _, _, hfg, hgh => IsUnary.not.order_lt_trans (order_lt_trans (f := a)) hfg hgh
  | next a, _, _, hfg, hgh => IsUnary.next.order_lt_trans (order_lt_trans (f := a)) hfg hgh
  | always a, _, _, hfg, hgh => IsUnary.always.order_lt_trans (order_lt_trans (f := a)) hfg hgh
  | eventually a, _, _, hfg, hgh =>
      IsUnary.eventually.order_lt_trans (order_lt_trans (f := a)) hfg hgh
  | untl a x, _, _, hfg, hgh =>
      IsBinary.untl.order_lt_trans (order_lt_trans (f := a)) (order_lt_trans (f := x)) hfg hgh
  | release a x, _, _, hfg, hgh =>
      IsBinary.release.order_lt_trans (order_lt_trans (f := a)) (order_lt_trans (f := x)) hfg hgh
  | junction k fs, g, h, hfg, hgh => by
      cases h with
      | junction m hs =>
          cases g with
          | junction l gs =>
              exact then_lt_trans Connective.compare_eq_iff Std.TransCmp.lt_trans
                (orderOperands_lt_trans (l := fs)) hfg hgh
          | _ => exact absurd (ranksFirst.rank_between hfg hgh rfl) (by simp [rank])
      | _ => exact ranksFirst.lt_trans (by simp [rank]) hfg hgh

theorem orderOperands_lt_trans :
    ∀ {l m n : List Formula}, orderOperands l m = .lt → orderOperands m n = .lt →
      orderOperands l n = .lt
  | [], [], _, hfg, _ => by cases hfg
  | [], _ :: _, [], _, hgh => by cases hgh
  | [], _ :: _, _ :: _, _, _ => rfl
  | _ :: _, [], _, hfg, _ => by cases hfg
  | _ :: _, _ :: _, [], _, hgh => by cases hgh
  | f :: fs, g :: gs, h :: hs, hfg, hgh => by
      exact then_lt_trans order_eq_iff (order_lt_trans (f := f))
        (orderOperands_lt_trans (l := fs)) hfg hgh

end

instance : Std.TransOrd Formula :=
  transCmp_of_lt_trans order_swap order_eq_iff.mp order_lt_trans

instance : Std.LawfulEqOrd Formula where
  eq_of_compare := order_eq_iff.mp

end Formula

end LinearTemporal

import LinearTemporal.Formula.Validity
import LinearTemporal.Proofs.CanonicalOrder
import LinearTemporal.Proofs.Parts

/-!
# Canonical shape is kept

What `validate` accepts, node by node, and what the constructions of the library
do to it: `join` makes a valid formula of any valid formulas, and replacing the
parts of a valid formula by valid parts gives a valid formula.
-/

namespace LinearTemporal
namespace Formula

/-!
## What is valid

A valid junction has two operands or more, in ascending order, none of which is a
junction with the same connective; the parts of a valid formula are valid.
-/

theorem validate_seq_eq_ok {x y : Except InvariantViolation Unit} :
    (do x; y) = Except.ok () ↔ x = .ok () ∧ y = .ok () := by
  cases x with
  | error e => simp [bind, Except.bind]
  | ok u => simp [bind, Except.bind]

theorem validateOperands_eq_ok {k : Connective} {whole : Formula} {fs : List Formula} :
    validateOperands k whole fs = .ok () ↔ ∀ f ∈ fs, f.isJunction k = false ∧ f.IsValid := by
  induction fs with
  | nil => simp [validateOperands]
  | cons f fs ih =>
      unfold validateOperands
      cases hf : f.isJunction k with
      | true => simp [hf]
      | false => simp [validate_seq_eq_ok, ih, IsValid, hf]

theorem isValid_junction {k : Connective} {fs : List Formula} :
    (junction k fs).IsValid ↔
      2 ≤ fs.length ∧ Ascending.IsAscending fs ∧
        ∀ f ∈ fs, f.isJunction k = false ∧ f.IsValid := by
  show (junction k fs).validate = .ok () ↔ _
  rw [validate]
  by_cases hlen : fs.length < 2
  · simp only [hlen, ↓reduceIte]
    constructor
    · intro h
      cases h
    · intro h
      omega
  · cases hasc : Ascending.check fs with
    | false =>
        have hnot : ¬ Ascending.IsAscending fs := by
          rw [← Ascending.check_eq_true_iff, hasc]
          exact Bool.false_ne_true
        simp [hlen, hnot]
    | true =>
        have hasc' := Ascending.check_eq_true_iff.mp hasc
        simp only [hlen, Bool.not_true, Bool.false_eq_true, ↓reduceIte]
        rw [validateOperands_eq_ok]
        constructor
        · intro h
          exact ⟨Nat.le_of_not_lt hlen, hasc', h⟩
        · intro h
          exact h.2.2

theorem isValid_untl {left right : Formula} :
    (untl left right).IsValid ↔ left.IsValid ∧ right.IsValid :=
  validate_seq_eq_ok

theorem isValid_release {left right : Formula} :
    (release left right).IsValid ↔ left.IsValid ∧ right.IsValid :=
  validate_seq_eq_ok

theorem IsUnary.isValid_iff {op : Formula → Formula} (hop : IsUnary op) {body : Formula} :
    (op body).IsValid ↔ body.IsValid := by
  cases hop <;> exact Iff.rfl

theorem IsBinary.isValid_iff {op : Formula → Formula → Formula} (hop : IsBinary op)
    {left right : Formula} : (op left right).IsValid ↔ left.IsValid ∧ right.IsValid := by
  cases hop with
  | untl => exact isValid_untl
  | release => exact isValid_release

theorem IsValid.children {f g : Formula} (hf : f.IsValid) (hg : g ∈ f.children) : g.IsValid := by
  cases f.arity with
  | leaf hleaf =>
      rw [hleaf] at hg
      cases hg
  | unary hop body =>
      rw [hop.children, List.mem_singleton] at hg
      rw [hg]
      exact hop.isValid_iff.mp hf
  | binary hop left right =>
      rw [hop.children, List.mem_cons, List.mem_singleton] at hg
      rcases hg with rfl | rfl
      · exact (hop.isValid_iff.mp hf).1
      · exact (hop.isValid_iff.mp hf).2
  | junction k fs => exact ((isValid_junction.mp hf).2.2 g hg).2

theorem IsValid.of_occursIn {f g : Formula} (hf : f.IsValid) (hg : g.OccursIn f) :
    g.IsValid := by
  induction hg with
  | root => exact hf
  | part hpart _ ih => exact ih (hf.children hpart)

/-!
## Joining

The operands of a junction before it is collapsed are what the joined formulas
contribute.  So what is joined counts only for the operands that it contributes: it may
be joined in groups, in any order and more than once.  Joining has three shapes, for no
operand, one, and two or more.
-/

def joinOperands (k : Connective) (fs : List Formula) : List Formula :=
  Ascending.ofList (fs.flatMap (operandsUnder k))

theorem join_eq_collapse (k : Connective) (fs : List Formula) :
    join k fs = collapse k (joinOperands k fs) :=
  rfl

theorem mem_joinOperands {k : Connective} {fs : List Formula} {g : Formula} :
    g ∈ joinOperands k fs ↔ ∃ f ∈ fs, g ∈ f.operandsUnder k := by
  simp [joinOperands, Ascending.mem_ofList]

theorem mem_operandsUnder_junction {k : Connective} {fs : List Formula} {g : Formula} :
    g ∈ (junction k fs).operandsUnder k ↔ g ∈ fs := by
  rw [operandsUnder, if_pos rfl]

theorem isAscending_joinOperands (k : Connective) (fs : List Formula) :
    Ascending.IsAscending (joinOperands k fs) :=
  Ascending.isAscending_ofList _

theorem operandsUnder_of_isJunction_eq_false {k : Connective} {f : Formula}
    (h : f.isJunction k = false) : f.operandsUnder k = [f] := by
  cases f with
  | junction l fs =>
      have hne : l ≠ k := by simpa [isJunction] using h
      simp [operandsUnder, hne]
  | _ => rfl

theorem eq_junction_of_isJunction {k : Connective} {f : Formula} (h : f.isJunction k = true) :
    f = junction k (f.operandsUnder k) := by
  cases f with
  | junction l fs =>
      have heq : l = k := by simpa [isJunction] using h
      simp [operandsUnder, heq]
  | _ => cases h

theorem IsValid.operandsUnder {k : Connective} {f g : Formula} (hf : f.IsValid)
    (hg : g ∈ f.operandsUnder k) : g.isJunction k = false ∧ g.IsValid := by
  cases hk : f.isJunction k with
  | true =>
      rw [eq_junction_of_isJunction hk] at hf
      exact (isValid_junction.mp hf).2.2 g hg
  | false =>
      rw [operandsUnder_of_isJunction_eq_false hk] at hg
      cases List.mem_singleton.mp hg
      exact ⟨hk, hf⟩

theorem isValid_collapse {k : Connective} {fs : List Formula}
    (hasc : Ascending.IsAscending fs) (hfs : ∀ f ∈ fs, f.isJunction k = false ∧ f.IsValid) :
    (collapse k fs).IsValid := by
  match fs with
  | [] => rfl
  | [f] => exact (hfs f (List.mem_singleton.mpr rfl)).2
  | f :: g :: fs => exact isValid_junction.mpr ⟨by simp, hasc, hfs⟩

theorem isJunction_eq_false_of_mem_joinOperands {k : Connective} {fs : List Formula}
    (hfs : ∀ f ∈ fs, f.IsValid) {g : Formula} (hg : g ∈ joinOperands k fs) :
    g.isJunction k = false ∧ g.IsValid := by
  rcases mem_joinOperands.mp hg with ⟨f, hf, hgf⟩
  exact (hfs f hf).operandsUnder hgf

theorem isValid_join {k : Connective} {fs : List Formula} (h : ∀ f ∈ fs, f.IsValid) :
    (join k fs).IsValid := by
  rw [join_eq_collapse]
  exact isValid_collapse (isAscending_joinOperands k fs)
    fun _ => isJunction_eq_false_of_mem_joinOperands h

theorem forall_joinOperands {k : Connective} {fs : List Formula} {P : Formula → Prop}
    (hP : ∀ f, P f → ∀ g ∈ f.children, P g) (h : ∀ f ∈ fs, P f) :
    ∀ g ∈ joinOperands k fs, P g := by
  intro g hg
  rcases mem_joinOperands.mp hg with ⟨f, hf, hgf⟩
  cases hk : f.isJunction k with
  | true =>
      rw [eq_junction_of_isJunction hk] at hf
      exact hP _ (h _ hf) g hgf
  | false =>
      rw [operandsUnder_of_isJunction_eq_false hk] at hgf
      cases List.mem_singleton.mp hgf
      exact h g hf

theorem mem_children_join {k : Connective} {fs : List Formula} {P : Formula → Prop}
    (hP : ∀ f, P f → ∀ g ∈ f.children, P g) (h : ∀ f ∈ fs, P f) :
    ∀ g ∈ (join k fs).children, P g := by
  have hoperands : ∀ g ∈ joinOperands k fs, P g := forall_joinOperands hP h
  rw [join_eq_collapse]
  match hshape : joinOperands k fs with
  | [] =>
      intro g hg
      cases hg
  | [f] =>
      rw [hshape] at hoperands
      exact hP f (hoperands f (List.mem_singleton.mpr rfl))
  | f :: g :: gs =>
      rw [hshape] at hoperands
      exact hoperands

theorem mem_joinOperands_of_forall {k : Connective} {fs : List Formula}
    (h : ∀ f ∈ fs, f.isJunction k = false) {g : Formula} : g ∈ joinOperands k fs ↔ g ∈ fs := by
  rw [mem_joinOperands]
  constructor
  · rintro ⟨f, hf, hg⟩
    rw [operandsUnder_of_isJunction_eq_false (h f hf)] at hg
    rcases List.mem_singleton.mp hg with rfl
    exact hf
  · intro hg
    refine ⟨g, hg, ?_⟩
    rw [operandsUnder_of_isJunction_eq_false (h g hg)]
    exact List.mem_singleton_self g

/-- Joining the operands of a valid junction gives the junction again. -/
theorem join_eq_junction {k : Connective} {fs : List Formula} (h : (junction k fs).IsValid) :
    join k fs = junction k fs := by
  rcases isValid_junction.mp h with ⟨hlength, hascending, hfs⟩
  have hoperands : joinOperands k fs = fs :=
    Ascending.IsAscending.ext (isAscending_joinOperands k fs) hascending
      fun _ => mem_joinOperands_of_forall fun f hf => (hfs f hf).1
  rw [join_eq_collapse, hoperands]
  match fs with
  | [] | [_] => simp at hlength
  | _ :: _ :: _ => rfl

theorem join_congr {k : Connective} {fs gs : List Formula}
    (h : ∀ g, (∃ f ∈ fs, g ∈ f.operandsUnder k) ↔ ∃ f ∈ gs, g ∈ f.operandsUnder k) :
    join k fs = join k gs := by
  have hoperands : joinOperands k fs = joinOperands k gs := by
    apply Ascending.IsAscending.ext (isAscending_joinOperands k fs) (isAscending_joinOperands k gs)
    intro g
    rw [mem_joinOperands, mem_joinOperands]
    exact h g
  rw [join_eq_collapse, join_eq_collapse, hoperands]

theorem join_congr_mem {k : Connective} {fs gs : List Formula} (h : ∀ f, f ∈ fs ↔ f ∈ gs) :
    join k fs = join k gs :=
  join_congr fun _ => by simp only [h]

theorem join_append_comm {k : Connective} (fs gs : List Formula) :
    join k (fs ++ gs) = join k (gs ++ fs) :=
  join_congr_mem fun f => by rw [List.mem_append, List.mem_append, or_comm]

theorem join_joinOperands {k : Connective} {fs : List Formula} (hfs : ∀ f ∈ fs, f.IsValid) :
    join k (joinOperands k fs) = join k fs := by
  have hoperands : joinOperands k (joinOperands k fs) = joinOperands k fs := by
    apply Ascending.IsAscending.ext (isAscending_joinOperands k _) (isAscending_joinOperands k fs)
    intro g
    exact mem_joinOperands_of_forall
      fun f hf => (isJunction_eq_false_of_mem_joinOperands hfs hf).1
  rw [join_eq_collapse, join_eq_collapse, hoperands]

theorem join_singleton (k : Connective) {f : Formula} (hf : f.IsValid) : join k [f] = f := by
  cases hk : f.isJunction k with
  | true =>
      have hjunction := eq_junction_of_isJunction hk
      rw [hjunction] at hf
      calc join k [f]
          = join k (f.operandsUnder k) := join_congr fun g => by
            rw [← mem_joinOperands, ← mem_joinOperands,
              mem_joinOperands_of_forall fun f hf' => ((isValid_junction.mp hf).2.2 f hf').1,
              mem_joinOperands]
            simp only [List.mem_singleton, exists_eq_left]
        _ = f := by rw [join_eq_junction hf, ← hjunction]
  | false =>
      rw [join_eq_collapse, joinOperands, List.flatMap_singleton,
        operandsUnder_of_isJunction_eq_false hk]
      rfl

theorem join_cases {k : Connective} {fs : List Formula} (hfs : ∀ f ∈ fs, f.IsValid) :
    (joinOperands k fs = [] ∧ join k fs = const k.neutral) ∨
      (∃ f, joinOperands k fs = [f] ∧ join k fs = f) ∨
        (join k fs = junction k (joinOperands k fs) ∧
          (junction k (joinOperands k fs)).IsValid) := by
  have hvalid := isValid_join (k := k) hfs
  rw [join_eq_collapse] at hvalid ⊢
  match hshape : joinOperands k fs with
  | [] => exact Or.inl ⟨rfl, rfl⟩
  | [f] => exact Or.inr (Or.inl ⟨f, rfl, rfl⟩)
  | f :: g :: gs =>
      rw [hshape] at hvalid
      exact Or.inr (Or.inr ⟨rfl, hvalid⟩)

theorem join_of_mem_of_ne {k : Connective} {fs : List Formula} (hfs : ∀ f ∈ fs, f.IsValid)
    {f g : Formula} (hf : f ∈ joinOperands k fs) (hg : g ∈ joinOperands k fs) (hne : f ≠ g) :
    join k fs = junction k (joinOperands k fs) ∧ (junction k (joinOperands k fs)).IsValid := by
  rcases join_cases hfs with ⟨hnil, _⟩ | ⟨x, hsingle, _⟩ | hjunction
  · rw [hnil] at hf
    cases hf
  · rw [hsingle, List.mem_singleton] at hf hg
    exact absurd (hf.trans hg.symm) hne
  · exact hjunction

theorem IsValid.operands_ne_nil {k : Connective} {fs : List Formula}
    (h : (junction k fs).IsValid) : fs ≠ [] :=
  List.ne_nil_of_length_pos (Nat.lt_of_succ_lt (isValid_junction.mp h).1)

theorem operandsUnder_ne_nil {k : Connective} {f : Formula} (hf : f.IsValid) :
    f.operandsUnder k ≠ [] := by
  cases hk : f.isJunction k with
  | true =>
      rw [eq_junction_of_isJunction hk] at hf
      exact hf.operands_ne_nil
  | false =>
      rw [operandsUnder_of_isJunction_eq_false hk]
      exact List.cons_ne_nil f []

theorem joinOperands_ne_nil {k : Connective} {fs : List Formula} (hne : fs ≠ [])
    (hfs : ∀ f ∈ fs, f.IsValid) : joinOperands k fs ≠ [] := by
  rcases List.exists_mem_of_ne_nil fs hne with ⟨f, hf⟩
  rcases List.exists_mem_of_ne_nil _ (operandsUnder_ne_nil (k := k) (hfs f hf)) with ⟨g, hg⟩
  exact List.ne_nil_of_mem (mem_joinOperands.mpr ⟨f, hf, hg⟩)

theorem mem_operandsUnder_join_iff {k : Connective} {fs : List Formula} (hne : fs ≠ [])
    (hfs : ∀ f ∈ fs, f.IsValid) {g : Formula} :
    g ∈ (join k fs).operandsUnder k ↔ ∃ f ∈ fs, g ∈ f.operandsUnder k := by
  rw [← mem_joinOperands]
  rcases join_cases (k := k) hfs with ⟨hnil, _⟩ | ⟨f, hsingle, hjoin⟩ | ⟨hjoin, _⟩
  · exact absurd hnil (joinOperands_ne_nil hne hfs)
  · have hf : f ∈ joinOperands k fs := hsingle ▸ List.mem_singleton_self f
    rw [hsingle, hjoin, operandsUnder_of_isJunction_eq_false
      (isJunction_eq_false_of_mem_joinOperands hfs hf).1]
  · rw [hjoin, mem_operandsUnder_junction]

theorem join_cons_join {k : Connective} {fs gs : List Formula} (hne : fs ≠ [])
    (hfs : ∀ f ∈ fs, f.IsValid) : join k (join k fs :: gs) = join k (fs ++ gs) := by
  apply join_congr
  intro g
  simp only [List.mem_cons, List.mem_append, or_and_right, exists_or, exists_eq_left]
  rw [mem_operandsUnder_join_iff hne hfs]

theorem join_operandsUnder_append {k : Connective} {f : Formula} (hf : f.IsValid)
    (gs : List Formula) : join k (f.operandsUnder k ++ gs) = join k (f :: gs) := by
  have hflat : ∀ h ∈ f.operandsUnder k, h.operandsUnder k = [h] :=
    fun h hh => operandsUnder_of_isJunction_eq_false (hf.operandsUnder hh).1
  apply join_congr
  intro g
  simp only [List.mem_cons, List.mem_append, or_and_right, exists_or, exists_eq_left]
  refine or_congr_left ⟨?_, fun hg => ⟨g, hg, ?_⟩⟩
  · rintro ⟨h, hh, hg⟩
    rw [hflat h hh, List.mem_singleton] at hg
    rw [hg]
    exact hh
  · rw [hflat g hg]
    exact List.mem_singleton_self g

theorem join_operandsUnder {k : Connective} {f : Formula} (hf : f.IsValid) :
    join k (f.operandsUnder k) = f := by
  have hjoin := join_operandsUnder_append (k := k) hf []
  rw [List.append_nil, join_singleton k hf] at hjoin
  exact hjoin

theorem join_cons_operandsUnder {k : Connective} {f : Formula} (hf : f.IsValid) :
    join k (f :: f.operandsUnder k) = f :=
  calc join k (f :: f.operandsUnder k)
      = join k (f.operandsUnder k ++ [f]) := join_append_comm [f] _
    _ = join k [f, f] := join_operandsUnder_append hf [f]
    _ = join k [f] := join_congr_mem (by simp)
    _ = f := join_singleton k hf

theorem mem_operandsUnder_join {k : Connective} {fs : List Formula}
    (h : ∀ f ∈ fs, f.isJunction k = false) (hne : fs ≠ []) {g : Formula} :
    g ∈ (join k fs).operandsUnder k ↔ g ∈ fs := by
  have hmem : ∀ {f : Formula}, f ∈ joinOperands k fs ↔ f ∈ fs := mem_joinOperands_of_forall h
  rw [← hmem, join_eq_collapse]
  match hshape : joinOperands k fs with
  | [] =>
      rcases List.exists_mem_of_ne_nil fs hne with ⟨f, hf⟩
      rw [← hmem, hshape] at hf
      cases hf
  | [f] =>
      have hf : f ∈ fs := by
        rw [← hmem, hshape]
        exact List.mem_singleton_self f
      rw [collapse, operandsUnder_of_isJunction_eq_false (h f hf)]
  | f :: f' :: rest => exact mem_operandsUnder_junction

/-!
## Replacing parts

What is handed down from a formula to its parts holds of all parts of a formula that was
put together from parts of which it holds.
-/

/-- What is handed down from a formula to its parts holds of all parts of a formula
that was put together from parts of which it holds. -/
theorem mem_children_mapChildren {P : Formula → Prop}
    (hP : ∀ f, P f → ∀ g ∈ f.children, P g) {change : Formula → Formula} {f : Formula}
    (h : ∀ g ∈ f.children, P (change g)) : ∀ g ∈ (f.mapChildren change).children, P g := by
  cases f.arity with
  | leaf hleaf =>
      rw [mapChildren_of_children_eq_nil change hleaf, hleaf]
      intro g hg
      cases hg
  | unary hop body =>
      rw [hop.mapChildren, hop.children, List.forall_mem_singleton]
      rw [hop.children, List.forall_mem_singleton] at h
      exact h
  | binary hop left right =>
      rw [hop.mapChildren, hop.children, List.forall_mem_cons, List.forall_mem_singleton]
      rw [hop.children, List.forall_mem_cons, List.forall_mem_singleton] at h
      exact h
  | junction k fs =>
      have hmapped : ∀ g ∈ fs.map change, P g := by
        intro g hg
        rcases List.mem_map.mp hg with ⟨f, hf, rfl⟩
        exact h f hf
      by_cases hmap : fs.map change = fs
      · rw [mapChildren_of_map_eq change (f := junction k fs) hmap]
        rw [hmap] at hmapped
        exact hmapped
      · rw [mapChildren_junction_of_ne change hmap]
        exact mem_children_join hP hmapped

theorem mapChildren_junction (change : Formula → Formula) {k : Connective} {fs : List Formula}
    (h : (junction k fs).IsValid) :
    (junction k fs).mapChildren change = join k (fs.map change) := by
  by_cases hmap : fs.map change = fs
  · rw [mapChildren_of_map_eq change (f := junction k fs) hmap, hmap, join_eq_junction h]
  · exact mapChildren_junction_of_ne change hmap

/-!
## Congruences of valid formulas

Putting valid parts together gives a valid formula.  So a relation has to be looked at
for valid formulas only, operator by operator, to be one that leads from valid formulas
to valid formulas.
-/

theorem isCongruence_ofValid {R : Formula → Formula → Prop} (refl : ∀ f, R f f)
    (unary : ∀ {op f g}, IsUnary op → f.IsValid → g.IsValid → R f g → R (op f) (op g))
    (binary : ∀ {op f f' g g'}, IsBinary op → (op f g).IsValid → (op f' g').IsValid → R f f' →
      R g g' → R (op f g) (op f' g'))
    (junction : ∀ {k fs} (change : Formula → Formula), (junction k fs).IsValid →
      (∀ f ∈ fs, (change f).IsValid) → (∀ f ∈ fs, R f (change f)) →
      R (Formula.junction k fs) (join k (fs.map change))) :
    IsCongruence (fun f g => f.IsValid → g.IsValid ∧ R f g) := by
  have hunary : ∀ {op f g}, IsUnary op → (f.IsValid → g.IsValid ∧ R f g) → (op f).IsValid →
      (op g).IsValid ∧ R (op f) (op g) := by
    intro op f g hop h hf
    rw [hop.isValid_iff] at hf ⊢
    exact ⟨(h hf).1, unary hop hf (h hf).1 (h hf).2⟩
  have hbinary : ∀ {op f f' g g'}, IsBinary op → (f.IsValid → f'.IsValid ∧ R f f') →
      (g.IsValid → g'.IsValid ∧ R g g') → (op f g).IsValid →
      (op f' g').IsValid ∧ R (op f g) (op f' g') := by
    intro op f f' g g' hop h h' hvalid
    rcases hop.isValid_iff.mp hvalid with ⟨hf, hg⟩
    have hvalid' := hop.isValid_iff.mpr ⟨(h hf).1, (h' hg).1⟩
    exact ⟨hvalid', binary hop hvalid hvalid' (h hf).2 (h' hg).2⟩
  exact {
    refl := fun f hf => ⟨hf, refl f⟩
    not := hunary IsUnary.not
    next := hunary IsUnary.next
    always := hunary IsUnary.always
    eventually := hunary IsUnary.eventually
    untl := hbinary IsBinary.untl
    release := hbinary IsBinary.release
    junction := by
      intro k fs change hchange hjunction
      have hall := fun f hf => hchange f hf (hjunction.children hf)
      refine ⟨isValid_join ?_, junction change hjunction (fun f hf => (hall f hf).1)
        fun f hf => (hall f hf).2⟩
      intro g hg
      rcases List.mem_map.mp hg with ⟨f, hf, rfl⟩
      exact (hall f hf).1 }

theorem IsCongruence.ofValid {R : Formula → Formula → Prop} (hR : IsCongruence R) :
    IsCongruence (fun f g => f.IsValid → g.IsValid ∧ R f g) :=
  isCongruence_ofValid hR.refl (fun hop _ _ h => hR.unary hop h)
    (fun hop _ _ h h' => hR.binary hop h h') fun change _ _ h => hR.junction change h

end Formula
end LinearTemporal

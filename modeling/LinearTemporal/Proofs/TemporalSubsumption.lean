import LinearTemporal.Proofs.EntailmentOrder
import LinearTemporal.Proofs.Gathered

/-!
# A formula beside itself at all times

What holds at all times holds now, and what holds now holds at some time, so `always f` and `f`
together are to come to `always f`, and `eventually f` or `f` to `eventually f`; `always f` or
`f` is to come to `f`.  Subsumption compares one operand with one other, and so this depends on
what operands it finds: those that the modal rules gather from the operands of `f`.

Two lemmas say what subsumption does with operands that the modal rules leave alone.  An operand
that makes all others redundant is all that remains, and an operand that one of the others makes
redundant is dropped, whatever becomes of the others.  Of two operands that make each other
redundant the first one is dropped, so the order of the operands matters.
-/

namespace LinearTemporal

namespace Rule

variable {k : Connective}

/-!
## The first redundant operand

An operand is redundant if another one of the operands makes it so.  Where the modal
rules have no outcome, the first redundant one is dropped.
-/

def IsRedundant (k : Connective) (fs : List Formula) (f : Formula) : Prop :=
  ∃ g ∈ fs, g ≠ f ∧ makesRedundant k g f = true

theorem IsRedundant.mono {fs gs : List Formula} {f : Formula} (h : IsRedundant k fs f)
    (hsubset : fs ⊆ gs) : IsRedundant k gs f := by
  rcases h with ⟨g, hg, hne, hredundant⟩
  exact ⟨g, hsubset hg, hne, hredundant⟩

/-- The redundant operand of a list that comes before every other one. -/
structure IsFirstRedundant (k : Connective) (fs : List Formula) (f : Formula) : Prop where
  mem : f ∈ fs
  redundant : IsRedundant k fs f
  first : ∀ g ∈ fs, IsRedundant k fs g → g = f ∨ compare f g = .lt

theorem IsFirstRedundant.not_lt {fs : List Formula} {f g : Formula}
    (hf : IsFirstRedundant k fs f) (hg : g ∈ fs) (hredundant : IsRedundant k fs g) :
    compare g f ≠ .lt := by
  intro hlt
  rcases hf.first g hg hredundant with rfl | hgt
  · rw [Std.LawfulEqOrd.compare_eq_iff_eq.mpr rfl] at hlt
    cases hlt
  · rw [Std.OrientedCmp.gt_of_lt hgt] at hlt
    cases hlt

theorem IsFirstRedundant.unique {fs : List Formula} {f g : Formula}
    (hf : IsFirstRedundant k fs f) (hg : IsFirstRedundant k fs g) : f = g :=
  ((hf.first g hg.mem hg.redundant).resolve_right (hg.not_lt hf.mem hf.redundant)).symm

theorem any_makesRedundant_iff {fs : List Formula} {f : Formula} :
    fs.any (fun g => g != f && makesRedundant k g f) = true ↔ IsRedundant k fs f := by
  simp only [List.any_eq_true, Bool.and_eq_true, bne_iff_ne, IsRedundant]

theorem exists_isFirstRedundant {fs : List Formula} (hascending : Ascending.IsAscending fs)
    (h : ∃ f ∈ fs, IsRedundant k fs f) : ∃ f, IsFirstRedundant k fs f ∧
      dropRedundant k fs = some (Formula.join k (fs.filter (fun g => g != f))) := by
  cases hfind : fs.find? (fun f => fs.any (fun g => g != f && makesRedundant k g f)) with
  | none =>
      rcases h with ⟨f, hf, hredundant⟩
      exact absurd (any_makesRedundant_iff.mpr hredundant) (List.find?_eq_none.mp hfind f hf)
  | some f =>
      refine ⟨f, ⟨List.mem_of_find?_eq_some hfind, ?_, ?_⟩, ?_⟩
      · have hf := List.find?_some
          (p := fun f => fs.any (fun g => g != f && makesRedundant k g f)) hfind
        exact any_makesRedundant_iff.mp hf
      · rcases List.find?_eq_some_iff_append.mp hfind with ⟨_, before, after, rfl, hbefore⟩
        intro g hg hredundant
        rcases List.mem_append.mp hg with hg | hg
        · have hnone := hbefore g hg
          rw [any_makesRedundant_iff.mpr hredundant] at hnone
          cases hnone
        · have hafter := (List.pairwise_append.mp hascending).2.1
          exact (List.mem_cons.mp hg).imp id ((List.pairwise_cons.mp hafter).1 g)
      · rw [dropRedundant, hfind]
        rfl

theorem firstOutcome_of_dropRedundant {fs : List Formula} {g : Formula}
    (hmodal : firstOutcome (.junction k fs) Strategy.modal.rules = none)
    (h : dropRedundant k fs = some g) :
    firstOutcome (.junction k fs) Strategy.aggressive.rules = some g := by
  unfold firstOutcome at hmodal ⊢
  rw [Strategy.aggressive_rules, List.findSome?_append, hmodal, Option.none_or]
  cases k with
  | and | or => simp only [subsumption, List.findSome?_cons, dropImpliedConjunct,
      dropImplyingDisjunct, h]

end Rule

namespace Formula

open Rule (makesRedundant IsRedundant IsFirstRedundant)

variable {k : Connective} {d : Formula} {fs : List Formula}

/-!
## Operands that the modal rules leave alone

Such are the operands of a normal formula, if they are simplified, and a temporal
operator beside operands none of which it is gathered with.
-/

/-- Operands of a junction of which only redundant ones are left to drop. -/
structure LeavesRedundant (k : Connective) (fs : List Formula) : Prop where
  normal : ∀ f ∈ fs, f.IsNormal Strategy.aggressive.rules ∧ f.IsValid
  plain : ∀ f ∈ fs, f.isJunction k = false
  clean : Rule.IsClean fs
  unique : ∀ {body? : Formula → Option Formula} {wrap : Formula → Formula},
    Rule.Distributes k body? wrap → ∀ b b', wrap b ∈ fs → wrap b' ∈ fs → b = b'

theorem LeavesRedundant.modal (h : LeavesRedundant k fs) :
    ∀ f ∈ fs, f.IsNormal Strategy.modal.rules ∧ f.IsValid :=
  fun f hf => ⟨(h.normal f hf).1.modal, (h.normal f hf).2⟩

theorem LeavesRedundant.mono {gs : List Formula} (h : LeavesRedundant k fs)
    (hsubset : gs ⊆ fs) : LeavesRedundant k gs where
  normal g hg := h.normal g (hsubset hg)
  plain g hg := h.plain g (hsubset hg)
  clean := ⟨fun value hvalue => h.clean.const value (hsubset hvalue),
    fun f hf g hg => h.clean.complement f (hsubset hf) g (hsubset hg)⟩
  unique hdistributes b b' hb hb' := h.unique hdistributes b b' (hsubset hb) (hsubset hb')

theorem LeavesRedundant.of_isNormal {n : Formula} (hnormal : n.IsNormal Strategy.modal.rules)
    (hn : n.IsValid) (hconst : ∀ value, n ≠ const value)
    (hoperands : ∀ c ∈ n.operandsUnder k, c.IsNormal Strategy.aggressive.rules) :
    LeavesRedundant k (n.operandsUnder k) where
  normal c hc := ⟨hoperands c hc, (hn.operandsUnder hc).2⟩
  plain c hc := (hn.operandsUnder hc).1
  clean := by
    cases hk : n.isJunction k with
    | true =>
        rw [eq_junction_of_isJunction hk] at hnormal hn
        exact ⟨hnormal.const_not_mem Strategy.noConfusion hn,
          fun f hf g hg => hnormal.complement_not_mem Strategy.noConfusion hn hf hg⟩
    | false =>
        rw [operandsUnder_of_isJunction_eq_false hk]
        refine ⟨fun value hmem => hconst value (List.mem_singleton.mp hmem).symm, ?_⟩
        intro f hf g hg
        rw [List.mem_singleton.mp hf, List.mem_singleton.mp hg]
        exact complement?_ne_self n
  unique hdistributes b b' hb hb' := hnormal.body_unique ⟨rfl, hdistributes⟩ hn hb hb'

theorem LeavesRedundant.cons (h : LeavesRedundant k fs)
    (hnormal : d.IsNormal Strategy.aggressive.rules) (hd : d.IsValid)
    (hchildren : d.children ≠ []) (hplain : d.isJunction k = false)
    (hunique : ∀ {body? : Formula → Option Formula} {wrap : Formula → Formula},
      Rule.Distributes k body? wrap → ∀ b b', d = wrap b → wrap b' ∈ fs → b = b') :
    LeavesRedundant k (d :: fs) where
  normal := List.forall_mem_cons.mpr ⟨⟨hnormal, hd⟩, h.normal⟩
  plain := List.forall_mem_cons.mpr ⟨hplain, h.plain⟩
  clean := by
    have hall : ∀ f ∈ d :: fs, f.IsNormal Strategy.modal.rules ∧ f.IsValid :=
      List.forall_mem_cons.mpr ⟨⟨hnormal.modal, hd⟩, h.modal⟩
    exact isClean_of_forall h.clean hall
      (List.forall_mem_cons.mpr ⟨Or.inr hchildren, fun f hf => Or.inl hf⟩)
  unique hdistributes b b' hb hb' := by
    rcases List.mem_cons.mp hb with hb | hb
    · rcases List.mem_cons.mp hb' with hb' | hb'
      · exact (hdistributes.wrap_inj hdistributes (hb.trans hb'.symm)).2
      · exact hunique hdistributes b b' hb.symm hb'
    · rcases List.mem_cons.mp hb' with hb' | hb'
      · exact (hunique hdistributes b' b hb'.symm hb).symm
      · exact h.unique hdistributes b b' hb hb'

theorem LeavesRedundant.isNormal_join (h : LeavesRedundant k fs) :
    (join k fs).IsNormal Strategy.modal.rules :=
  isNormal_join_of_isClean h.modal h.plain h.clean h.unique

theorem LeavesRedundant.mem_joinOperands (h : LeavesRedundant k fs) {f : Formula} :
    f ∈ joinOperands k fs ↔ f ∈ fs :=
  mem_joinOperands_of_forall h.plain

theorem LeavesRedundant.exists_drop (h : LeavesRedundant k fs)
    (hredundant : ∃ f ∈ fs, IsRedundant k fs f) : ∃ f, IsFirstRedundant k fs f ∧
      (join k fs).simplify .aggressive =
        (join k (fs.filter (fun g => g != f))).simplify .aggressive := by
  have hmem : ∀ f, f ∈ joinOperands k fs ↔ f ∈ fs := fun f => h.mem_joinOperands
  have hiff : ∀ f, IsRedundant k (joinOperands k fs) f ↔ IsRedundant k fs f := fun f =>
    ⟨fun hf => hf.mono fun g => (hmem g).mp, fun hf => hf.mono fun g => (hmem g).mpr⟩
  have hsome : ∃ f ∈ joinOperands k fs, IsRedundant k (joinOperands k fs) f := by
    rcases hredundant with ⟨f, hf, hredundant⟩
    exact ⟨f, (hmem f).mpr hf, (hiff f).mpr hredundant⟩
  rcases Rule.exists_isFirstRedundant (isAscending_joinOperands k fs) hsome
    with ⟨f, hfirst, hdrop⟩
  refine ⟨f, ⟨(hmem f).mp hfirst.mem, (hiff f).mp hfirst.redundant, fun g hg hgredundant =>
    hfirst.first g ((hmem g).mpr hg) ((hiff g).mpr hgredundant)⟩, ?_⟩
  have hfilter : join k ((joinOperands k fs).filter (fun g => g != f)) =
      join k (fs.filter (fun g => g != f)) :=
    join_congr_mem fun g => by simp only [List.mem_filter, hmem]
  rcases hfirst.redundant with ⟨g, hg, hne, _⟩
  rcases join_of_mem_of_ne (fun g hg => (h.normal g hg).2) hg hfirst.mem hne with ⟨hjoin, hvalid⟩
  have hmodal : Rule.firstOutcome (junction k (joinOperands k fs)) Strategy.modal.rules = none :=
    (hjoin ▸ h.isNormal_join).firstOutcome_eq_none hvalid
  have hparts : ∀ g ∈ joinOperands k fs, g.IsNormal Strategy.aggressive.rules :=
    fun g hg => (h.normal g ((hmem g).mp hg)).1
  rw [hjoin, simplify_of_firstOutcome hvalid hparts
    (Rule.firstOutcome_of_dropRedundant hmodal hdrop), hfilter]

/-!
## Two ways in which operands are dropped

An operand that outlasts all others is left, by induction on their number.  An operand
that is redundant, and makes only later ones redundant, may be left out.
-/

theorem length_filter_ne_lt {f : Formula} (hf : f ∈ fs) :
    (fs.filter (fun g => g != f)).length < fs.length :=
  List.length_filter_lt_length_iff_exists.mpr ⟨f, hf, by simp⟩

/-- Whether `d` stays where it meets `f`: it makes `f` redundant, and if they make each other
redundant, `f` comes first. -/
def Outlasts (k : Connective) (d f : Formula) : Prop :=
  makesRedundant k d f = true ∧ (makesRedundant k f d = true → compare f d = .lt)

instance (k : Connective) (d f : Formula) : Decidable (Outlasts k d f) :=
  inferInstanceAs (Decidable (_ ∧ (_ → _)))

theorem LeavesRedundant.exists_drop_cons (h : LeavesRedundant k (d :: fs))
    (hne : ∀ f ∈ fs, f ≠ d) (hredundant : ∃ f ∈ d :: fs, IsRedundant k (d :: fs) f) :
    ∃ f, IsFirstRedundant k (d :: fs) f ∧
      (f = d ∧ (join k (d :: fs)).simplify .aggressive = (join k fs).simplify .aggressive ∨
        f ∈ fs ∧ f ≠ d ∧ (join k (d :: fs)).simplify .aggressive =
          (join k (d :: fs.filter (fun g => g != f))).simplify .aggressive) := by
  rcases h.exists_drop hredundant with ⟨f, hfirst, hdrop⟩
  refine ⟨f, hfirst, ?_⟩
  by_cases hfd : f = d
  · have hkept : (d :: fs).filter (fun g => g != f) = fs := by
      rw [hfd, List.filter_cons_of_neg (by simp),
        List.filter_eq_self.mpr fun g hg => bne_iff_ne.mpr (hne g hg)]
    rw [hdrop, hkept]
    exact Or.inl ⟨hfd, rfl⟩
  · have hkept : (d :: fs).filter (fun g => g != f) = d :: fs.filter (fun g => g != f) :=
      List.filter_cons_of_pos (bne_iff_ne.mpr (Ne.symm hfd))
    rw [hdrop, hkept]
    exact Or.inr ⟨(List.mem_cons.mp hfirst.mem).resolve_left hfd, hfd, rfl⟩

theorem simplify_join_cons_of_outlasts (h : LeavesRedundant k (d :: fs)) (hne : ∀ f ∈ fs, f ≠ d)
    (hd : ∀ f ∈ fs, Outlasts k d f) : (join k (d :: fs)).simplify .aggressive = d := by
  induction hlength : fs.length using Nat.strongRecOn generalizing fs with
  | ind n ih =>
      by_cases hnil : fs = []
      · rcases h.normal d List.mem_cons_self with ⟨hnormal, hvalid⟩
        rw [hnil, join_singleton k hvalid, simplify_of_isNormal hnormal]
      · have hredundant : ∀ f ∈ fs, IsRedundant k (d :: fs) f := fun f hf =>
          ⟨d, List.mem_cons_self, (hne f hf).symm, (hd f hf).1⟩
        rcases List.exists_mem_of_ne_nil fs hnil with ⟨t, ht⟩
        rcases h.exists_drop_cons hne ⟨t, List.mem_cons_of_mem d ht, hredundant t ht⟩
          with ⟨f, hfirst, ⟨rfl, _⟩ | ⟨hf, _, hdrop⟩⟩
        -- What makes `d` redundant comes before it, and is redundant itself.
        · rcases hfirst.redundant with ⟨g, hg, hgne, hgf⟩
          have hg := (List.mem_cons.mp hg).resolve_left hgne
          exact absurd ((hd g hg).2 hgf)
            (hfirst.not_lt (List.mem_cons_of_mem _ hg) (hredundant g hg))
        · have hrest : fs.filter (fun g => g != f) ⊆ fs := List.filter_subset_self fs
          rw [hdrop]
          exact ih _ (hlength ▸ length_filter_ne_lt hf) (h.mono (List.cons_subset_cons d hrest))
            (fun g hg => hne g (hrest hg)) (fun g hg => hd g (hrest hg)) rfl

theorem simplify_join_cons_of_redundant (h : LeavesRedundant k (d :: fs)) (hne : ∀ f ∈ fs, f ≠ d)
    (hd : ∃ f ∈ fs, makesRedundant k f d = true)
    (hlater : ∀ f ∈ fs, makesRedundant k d f = true → compare d f = .lt) :
    (join k (d :: fs)).simplify .aggressive = (join k fs).simplify .aggressive := by
  induction hlength : fs.length using Nat.strongRecOn generalizing fs with
  | ind n ih =>
      rcases hd with ⟨o, ho, hod⟩
      have hdredundant : IsRedundant k (d :: fs) d :=
        ⟨o, List.mem_cons_of_mem d ho, hne o ho, hod⟩
      rcases h.exists_drop_cons hne ⟨d, List.mem_cons_self, hdredundant⟩
        with ⟨f, hfirst, ⟨_, hdrop⟩ | ⟨hf, hfd, hdrop⟩⟩
      · exact hdrop
      -- Another operand is dropped, and without `d` it would be dropped as well.
      · rcases hfirst.redundant with ⟨g, hg, hgne, hgf⟩
        have hgd : g ≠ d := by
          rintro rfl
          exact hfirst.not_lt List.mem_cons_self hdredundant (hlater f hf hgf)
        have hg := (List.mem_cons.mp hg).resolve_left hgd
        have hrest : LeavesRedundant k fs := h.mono (List.subset_cons_self d fs)
        have hfirst' : IsFirstRedundant k fs f :=
          { mem := hf
            redundant := ⟨g, hg, hgne, hgf⟩
            first := fun c hc hredundant => hfirst.first c (List.mem_cons_of_mem d hc)
              (hredundant.mono (List.subset_cons_self d fs)) }
        rcases hrest.exists_drop ⟨f, hf, hfirst'.redundant⟩ with ⟨f', hfirst'', hdrop'⟩
        rw [hfirst''.unique hfirst'] at hdrop'
        have hmem : ∀ {c}, c ∈ fs.filter (fun g => g != f) ↔ c ∈ fs ∧ c ≠ f := by
          intro c
          rw [List.mem_filter, bne_iff_ne]
        rw [hdrop, hdrop']
        refine ih _ (hlength ▸ length_filter_ne_lt hf)
          (h.mono (List.cons_subset_cons d fun c hc => (hmem.mp hc).1))
          (fun c hc => hne c (hmem.mp hc).1) ?_ (fun c hc => hlater c (hmem.mp hc).1) rfl
        by_cases hof : o = f
        · exact ⟨g, hmem.mpr ⟨hg, hgne⟩, Rule.makesRedundant_trans hgf (hof ▸ hod)⟩
        · exact ⟨o, hmem.mpr ⟨ho, hof⟩, hod⟩

/-!
## Operators that are gathered

Beside operands of which one has the connective's own operator, an operand with it is
gathered.  If this adds nothing to the body, the operands with the same operator may be
left out.
-/

section

variable {z : Formula} (h : LeavesRedundant k fs)

include h

theorem LeavesRedundant.mem_joinOperands_cons_own {f : Formula} :
    f ∈ joinOperands k (k.own z :: fs) ↔ f = k.own z ∨ f ∈ fs :=
  (mem_joinOperands_of_forall (List.forall_mem_cons.mpr
    ⟨isJunction_wrap (Rule.distributes_own k) z, h.plain⟩)).trans List.mem_cons

theorem LeavesRedundant.join_bodies_cons_own {c : Formula} (hc : k.own c ∈ fs) :
    join k ((joinOperands k (k.own z :: fs)).filterMap k.own?) = join k [z, c] := by
  have hown := Rule.distributes_own k
  apply join_congr_mem
  intro b
  rw [mem_filterMap_body hown, h.mem_joinOperands_cons_own, List.mem_pair]
  exact or_congr ⟨fun heq => (hown.wrap_inj hown heq).2, fun heq => heq ▸ rfl⟩
    ⟨fun hb => h.unique hown b c hb hc, fun heq => heq ▸ hc⟩

theorem LeavesRedundant.join_rest_cons_own (g : Formula) :
    join k ((joinOperands k (k.own z :: fs)).filter (fun f => (k.own? f).isNone) ++ [g]) =
      join k (g :: fs.filter (fun f => (k.own? f).isNone)) := by
  have hown := Rule.distributes_own k
  rw [join_append_comm]
  apply join_congr_mem
  intro f
  rw [List.singleton_append, List.mem_cons, List.mem_cons, List.mem_filter, List.mem_filter,
    h.mem_joinOperands_cons_own, Option.isNone_iff_eq_none]
  refine or_congr_right (and_congr_left fun hnone => or_iff_right ?_)
  rintro rfl
  rw [hown.eq_some_iff.mpr rfl] at hnone
  cases hnone

variable (hnormal : (k.own z).IsNormal Strategy.aggressive.rules) (hz : (k.own z).IsValid)

include hnormal hz

theorem simplify_join_cons_own {c : Formula} (hc : k.own c ∈ fs) (hne : c ≠ z) :
    (join k (k.own z :: fs)).simplify .aggressive =
      (join k ((k.own (join k [z, c])).simplify .aggressive ::
        fs.filter (fun f => (k.own? f).isNone))).simplify .aggressive := by
  have hown := Rule.distributes_own k
  have hmem : ∀ f, f ∈ joinOperands k (k.own z :: fs) ↔ f = k.own z ∨ f ∈ fs :=
    fun f => h.mem_joinOperands_cons_own
  have hall : ∀ f ∈ k.own z :: fs, f.IsNormal Strategy.aggressive.rules ∧ f.IsValid :=
    List.forall_mem_cons.mpr ⟨⟨hnormal, hz⟩, h.normal⟩
  have hparts : ∀ f ∈ joinOperands k (k.own z :: fs),
      f.IsNormal Strategy.aggressive.rules ∧ f.IsValid :=
    fun f hf => hall f (List.mem_cons.mpr ((hmem f).mp hf))
  have hclean : Rule.IsClean (joinOperands k (k.own z :: fs)) := by
    refine isClean_of_forall h.clean
      (fun f hf => ⟨(hparts f hf).1.modal, (hparts f hf).2⟩) fun f hf => ?_
    rcases (hmem f).mp hf with rfl | hf
    · rw [hown.children_wrap]
      exact Or.inr (List.cons_ne_nil _ _)
    · exact Or.inl hf
  have hself := (hmem (k.own z)).mpr (Or.inl rfl)
  have hother := (hmem (k.own c)).mpr (Or.inr hc)
  have hcount : 2 ≤ ((joinOperands k (k.own z :: fs)).filterMap k.own?).length :=
    two_le_length_of_mem ((mem_filterMap_body hown).mpr hself)
      ((mem_filterMap_body hown).mpr hother) hne.symm
  have howns : k.own z ≠ k.own c := fun heq => hne (hown.wrap_inj hown heq).2.symm
  rcases join_of_mem_of_ne (fun f hf => (hall f hf).2) hself hother howns with ⟨hjunction, hvalid⟩
  have hfirst := Rule.firstOutcome_aggressive (Rule.firstOutcome_of_two_le_owns hclean hcount)
  rw [hjunction, simplify_of_firstOutcome hvalid (fun f hf => (hparts f hf).1) hfirst,
    simplify_join_wrap hown hvalid (fun f hf => (hparts f hf).1), h.join_bodies_cons_own hc,
    h.join_rest_cons_own]

theorem simplify_join_cons_own_filter
    (hbody : ∀ c, k.own c ∈ fs → c ≠ z ∧ (k.own (join k [z, c])).simplify .aggressive = k.own z) :
    (join k (k.own z :: fs)).simplify .aggressive =
      (join k (k.own z :: fs.filter (fun f => (k.own? f).isNone))).simplify .aggressive := by
  by_cases hsome : ∃ c, k.own c ∈ fs
  · rcases hsome with ⟨c, hc⟩
    rcases hbody c hc with ⟨hne, heq⟩
    rw [simplify_join_cons_own h hnormal hz hc hne, heq]
  · have hnone : ∀ f ∈ fs, (k.own? f).isNone = true := by
      intro f hf
      rw [Option.isNone_iff_eq_none, Option.eq_none_iff_forall_ne_some]
      intro c hc
      exact hsome ⟨c, (Rule.distributes_own k).eq_some_iff.mp hc ▸ hf⟩
    rw [List.filter_eq_self.mpr hnone]

theorem LeavesRedundant.cons_own :
    LeavesRedundant k (k.own z :: fs.filter (fun f => (k.own? f).isNone)) := by
  have hown := Rule.distributes_own k
  refine (h.mono (List.filter_subset_self fs)).cons hnormal hz ?_ (isJunction_wrap hown z) ?_
  · rw [hown.children_wrap]
    exact List.cons_ne_nil _ _
  · intro body? wrap hdistributes b b' hb hb'
    rcases hown.wrap_inj hdistributes hb with ⟨rfl, rfl⟩
    have hnone := (List.mem_filter.mp hb').2
    rw [hown.eq_some_iff.mpr rfl] at hnone
    cases hnone

end

/-- Beside the given operands, `d` is all that remains: it has the connective's own operator,
outlasts the others, and a body that is gathered with its own adds nothing. -/
def Remains (k : Connective) (d : Formula) (fs : List Formula) : Prop :=
  ∃ z, d = k.own z ∧ ∀ f ∈ fs, f ≠ d →
    Outlasts k d f ∧ ∀ c, f = k.own c → (k.own (join k [z, c])).simplify .aggressive = d

theorem simplify_join_cons_of_remains (h : LeavesRedundant k fs)
    (hnormal : d.IsNormal Strategy.aggressive.rules) (hd : d.IsValid) (hremains : Remains k d fs) :
    (join k (d :: fs)).simplify .aggressive = d := by
  rcases hremains with ⟨z, rfl, hall⟩
  let others := fs.filter (fun f => f != k.own z)
  have hmem : ∀ {f}, f ∈ others ↔ f ∈ fs ∧ f ≠ k.own z := by
    intro f
    rw [List.mem_filter, bne_iff_ne]
  have hjoin : join k (k.own z :: fs) = join k (k.own z :: others) := by
    apply join_congr_mem
    intro f
    rw [List.mem_cons, List.mem_cons, hmem]
    tauto
  have hothers : LeavesRedundant k others := h.mono fun f hf => (hmem.mp hf).1
  have hbody : ∀ c, k.own c ∈ others →
      c ≠ z ∧ (k.own (join k [z, c])).simplify .aggressive = k.own z := by
    intro c hc
    rcases hmem.mp hc with ⟨hcfs, hne⟩
    exact ⟨fun heq => hne (heq ▸ rfl), (hall _ hcfs hne).2 c rfl⟩
  rw [hjoin, simplify_join_cons_own_filter hothers hnormal hd hbody]
  refine simplify_join_cons_of_outlasts (hothers.cons_own hnormal hd) ?_ ?_
  · exact fun f hf => (hmem.mp (List.mem_filter.mp hf).1).2
  · intro f hf
    rcases hmem.mp (List.mem_filter.mp hf).1 with ⟨hf, hne⟩
    exact (hall f hf hne).1

/-!
## What is gathered, beside the operator over the whole

Where the operator over a formula stays, the formula comes to no constant.  So the
operands that are gathered from it leave only redundant ones to drop.
-/

theorem gathered_ne_const {l : Connective} {body? : Formula → Option Formula}
    {wrap : Formula → Formula} (hwrap : Rule.Distributes l body? wrap) {p z : Formula}
    (hp : p.IsValid) (h : (wrap p).simplify .aggressive = wrap z) (value : Bool) :
    p.gathered k ≠ const value := by
  intro hconst
  have hsimplify := simplify_gathered (k := k) hp
  rw [hconst, simplify_const] at hsimplify
  rw [simplify_wrap hwrap .aggressive hp, ← hsimplify,
    simplify_aggressive_wrap_const hwrap] at h
  cases hwrap <;> cases h

section

variable {p : Formula} (hp : p.IsValid)
  (hsimplified : ∀ c ∈ (p.gathered k).operandsUnder k, c.simplify .aggressive = c)

include hp hsimplified

theorem isNormal_of_mem_gathered {c : Formula} (hc : c ∈ (p.gathered k).operandsUnder k) :
    c.IsNormal Strategy.aggressive.rules := by
  rw [← hsimplified c hc]
  exact isNormal_simplify .aggressive ((isValid_gathered hp).operandsUnder hc).2

theorem leavesRedundant_gathered (hconst : ∀ value, p.gathered k ≠ const value) :
    LeavesRedundant k ((p.gathered k).operandsUnder k) :=
  LeavesRedundant.of_isNormal (isNormal_gathered hp) (isValid_gathered hp) hconst
    fun _ => isNormal_of_mem_gathered hp hsimplified

theorem simplify_join_cons_gathered {g : Formula} (hg : g.IsValid)
    (hk : g.isJunction k = false) : (join k [g, p]).simplify .aggressive =
      (join k (g.simplify .aggressive :: (p.gathered k).operandsUnder k)).simplify .aggressive := by
  have hswap : join k [g, p] = join k [p, g] := join_append_comm [g] [p]
  rw [hswap, simplify_join_gathered_of_isNormal hp hg hk
    fun c => isNormal_of_mem_gathered hp hsimplified, join_append_comm]
  rfl

theorem simplify_join_own
    (h : p.gathered k = (k.own p).simplify .aggressive ∨
      Remains k ((k.own p).simplify .aggressive) ((p.gathered k).operandsUnder k)) :
    (join k [k.own p, p]).simplify .aggressive = (k.own p).simplify .aggressive := by
  have hown := Rule.distributes_own k
  have hvalid : (k.own p).IsValid := hown.isValid_iff.mpr hp
  have hnormal := isNormal_simplify .aggressive hvalid
  have hd := isValid_simplify .aggressive hvalid
  rw [simplify_join_cons_gathered hp hsimplified hvalid (isJunction_wrap hown p)]
  rcases h with heq | hremains
  · rw [heq, join_cons_operandsUnder hd, simplify_of_isNormal hnormal]
  · rcases id hremains with ⟨z, heq, _⟩
    exact simplify_join_cons_of_remains
      (leavesRedundant_gathered hp hsimplified (gathered_ne_const hown hp heq)) hnormal hd hremains

end

/-- Beside the given operands, `d` is dropped: it is an `always` that implies one of them and is
implied only by later ones. -/
def GivesWay (d : Formula) (fs : List Formula) : Prop :=
  (∃ z, d = always z) ∧ (∃ f ∈ fs, d.implies f = true) ∧
    ∀ f ∈ fs, f.implies d = true → compare d f = .lt

theorem simplify_join_cons_of_givesWay (h : LeavesRedundant .or fs)
    (hnormal : d.IsNormal Strategy.aggressive.rules) (hd : d.IsValid) (hgives : GivesWay d fs) :
    (join .or (d :: fs)).simplify .aggressive = (join .or fs).simplify .aggressive := by
  rcases hgives with ⟨⟨z, rfl⟩, hredundant, hlater⟩
  have hne : ∀ f ∈ fs, f ≠ always z := by
    rintro f hf rfl
    have hlt := hlater _ hf (implies_refl _)
    rw [Std.LawfulEqOrd.compare_eq_iff_eq.mpr rfl] at hlt
    cases hlt
  have hleaves : LeavesRedundant .or (always z :: fs) := by
    refine h.cons hnormal hd (List.cons_ne_nil _ _) rfl ?_
    intro body? wrap hdistributes b b' hb
    cases hdistributes <;> cases hb
  exact simplify_join_cons_of_redundant hleaves hne hredundant hlater

theorem simplify_disj_always {p : Formula} (hp : p.IsValid)
    (hsimplified : ∀ c ∈ (p.gathered .or).operandsUnder .or, c.simplify .aggressive = c)
    (h : p.gathered .or = (always p).simplify .aggressive ∨
      (always p).simplify .aggressive ∈ (p.gathered .or).operandsUnder .or ∨
      GivesWay ((always p).simplify .aggressive) ((p.gathered .or).operandsUnder .or)) :
    (disj [always p, p]).simplify .aggressive = p.simplify .aggressive := by
  have hvalid : (always p).IsValid := hp
  have hd := isValid_simplify .aggressive hvalid
  have hgathered := isValid_gathered (k := .or) hp
  rw [disj, simplify_join_cons_gathered hp hsimplified hvalid rfl,
    ← simplify_gathered (k := .or) hp]
  rcases h with heq | hmem | hgives
  · rw [heq, join_cons_operandsUnder hd]
  · have hsame : join .or ((always p).simplify .aggressive ::
        (p.gathered .or).operandsUnder .or) = join .or ((p.gathered .or).operandsUnder .or) :=
      join_congr_mem fun f => by
        rw [List.mem_cons, or_iff_right_of_imp]
        rintro rfl
        exact hmem
    rw [hsame, join_operandsUnder hgathered]
  · rcases id hgives with ⟨⟨z, hz⟩, _⟩
    have hleaves := leavesRedundant_gathered hp hsimplified
      (gathered_ne_const Rule.Distributes.always hp hz)
    rw [simplify_join_cons_of_givesWay hleaves (isNormal_simplify .aggressive hvalid) hd hgives,
      join_operandsUnder hgathered]

/-!
## The three laws

Two of them are one law for a connective and its own operator.
-/

/-- What a formula comes to beside itself at all times, or at some time.  If the modal rules
gather simplified operands from it, `always p & p` comes to what `always p` does where that
remains beside these operands, `eventually p | p` to what `eventually p` does likewise, and
`always p | p` to what `p` does where `always p` is among the operands or gives way to them. -/
theorem simplify_at_all_times {p : Formula} (hp : p.IsValid) :
    ((∀ c ∈ (p.gathered .and).operandsUnder .and, c.simplify .aggressive = c) →
      p.gathered .and = (always p).simplify .aggressive ∨
        Remains .and ((always p).simplify .aggressive) ((p.gathered .and).operandsUnder .and) →
      (conj [always p, p]).simplify .aggressive = (always p).simplify .aggressive) ∧
    ((∀ c ∈ (p.gathered .or).operandsUnder .or, c.simplify .aggressive = c) →
      p.gathered .or = (eventually p).simplify .aggressive ∨
        Remains .or ((eventually p).simplify .aggressive) ((p.gathered .or).operandsUnder .or) →
      (disj [eventually p, p]).simplify .aggressive = (eventually p).simplify .aggressive) ∧
    ((∀ c ∈ (p.gathered .or).operandsUnder .or, c.simplify .aggressive = c) →
      p.gathered .or = (always p).simplify .aggressive ∨
        (always p).simplify .aggressive ∈ (p.gathered .or).operandsUnder .or ∨
        GivesWay ((always p).simplify .aggressive) ((p.gathered .or).operandsUnder .or) →
      (disj [always p, p]).simplify .aggressive = p.simplify .aggressive) :=
  ⟨fun hsimplified => simplify_join_own (k := .and) hp hsimplified,
    fun hsimplified => simplify_join_own (k := .or) hp hsimplified,
    fun hsimplified => simplify_disj_always hp hsimplified⟩

theorem simplify_at_all_times_and :
    let p : Formula := junction .and [literal "a" false, next (literal "b" false)]
    p.IsValid ∧ (conj [always p, p]).simplify .aggressive = always p ∧
      (disj [eventually p, p]).simplify .aggressive = eventually p ∧
      (disj [always p, p]).simplify .aggressive = p := by
  intro p
  have hp : p.IsValid := by decide +kernel
  have hself : p.simplify .aggressive = p := by decide +kernel
  have halways : (always p).simplify .aggressive = always p := by decide +kernel
  have heventually : (eventually p).simplify .aggressive = eventually p := by decide +kernel
  have hnormal : p.IsNormal Strategy.aggressive.rules := hself ▸ isNormal_simplify .aggressive hp
  have hand : (p.gathered .and).operandsUnder .and =
      [literal "a" false, next (literal "b" false)] := by
    rw [gathered_of_isNormal hp hnormal]
    rfl
  have hor : (p.gathered .or).operandsUnder .or = [p] := by
    rw [gathered_of_isJunction_eq_false hp rfl, hself]
    rfl
  have hsimplified : ∀ c ∈ [literal "a" false, next (literal "b" false)],
      c.simplify .aggressive = c := by decide +kernel
  have hoperands : Remains .and (always p) [literal "a" false, next (literal "b" false)] := by
    refine ⟨p, rfl, List.forall_mem_cons.mpr ⟨fun _ => ⟨?_, nofun⟩,
      List.forall_mem_singleton.mpr fun _ => ⟨?_, nofun⟩⟩⟩
    · decide +kernel
    · decide +kernel
  have hwhole : Remains .or (eventually p) [p] := by
    refine ⟨p, rfl, List.forall_mem_singleton.mpr fun _ => ⟨?_, nofun⟩⟩
    decide +kernel
  have hgives : GivesWay (always p) [p] := by
    refine ⟨⟨p, rfl⟩, ?_, ?_⟩
    · decide +kernel
    · decide +kernel
  rcases simplify_at_all_times hp with ⟨hconj, hdisj, hnow⟩
  rw [hand, halways] at hconj
  rw [hor, heventually] at hdisj
  rw [hor, halways, hself] at hnow
  exact ⟨hp, hconj hsimplified (Or.inr hoperands),
    hdisj (List.forall_mem_singleton.mpr hself) (Or.inr hwhole),
    hnow (List.forall_mem_singleton.mpr hself) (Or.inr (Or.inr hgives))⟩

/-- Beside the operator over all of it, `a | b` is compared operand by operand, `!a & G a` is
gathered with that operator, `a U b` is not known to imply it, and `a R G b` implies it. -/
theorem exists_simplify_at_all_times_ne :
    let a : Formula := literal "a" false
    let b : Formula := literal "b" false
    let either : Formula := junction .or [a, b]
    let both : Formula := junction .and [literal "a" true, always a]
    let later : Formula := untl a b
    let ever : Formula := release a (always b)
    (either.IsValid ∧
      (disj [always either, either]).simplify .aggressive ≠ either.simplify .aggressive) ∧
    (both.IsValid ∧
      (conj [always both, both]).simplify .aggressive ≠ (always both).simplify .aggressive) ∧
    (later.IsValid ∧ (disj [eventually later, later]).simplify .aggressive ≠
      (eventually later).simplify .aggressive) ∧
    ever.IsValid ∧
      (conj [always ever, ever]).simplify .aggressive ≠ (always ever).simplify .aggressive := by
  decide +kernel

end Formula

end LinearTemporal

import LinearTemporal.Formula.Document
import LinearTemporal.Proofs.Equivalence

/-!
# Documents and the formulas read from them

A document spells out a tree whose junctions may have any operands in any order.  Every
tree has a document that spells out exactly it, so nothing is lost in writing.  What is
read from a document is its tree in canonical shape: a valid formula that means what the
tree does, and that is read again from the document it is written as.
-/

namespace LinearTemporal

/-!
## Writing and spelling out

Every tree is spelled out by the document that it is written as.
-/

theorem Json.int64?_ofInt64 (value : Int64) : (ofInt64 value).int64? = some value := by
  have hrange : Int64.minValue.toInt ≤ value.toInt ∧ value.toInt ≤ Int64.maxValue.toInt :=
    ⟨value.minValue_le_toInt, value.toInt_le⟩
  show (if Int64.minValue.toInt ≤ value.toInt ∧ value.toInt ≤ Int64.maxValue.toInt then
    some (Int64.ofInt value.toInt) else none) = some value
  rw [if_pos hrange, Int64.ofInt_toInt]

theorem Comparison.ofJson?_toJson (op : Comparison) : ofJson? op.toJson = some op := by
  cases op <;> rfl

theorem Term.ofJson?_toJson (t : Term) : ofJson? t.toJson = some t := by
  induction t with
  | var name => rfl
  | int value => simp [toJson, ofJson?, Json.int64?_ofInt64]
  | neg body ih => simp [toJson, ofJson?, ih]
  | binary op left right ihleft ihright =>
      cases op with
      | add | sub | mul =>
          simp [toJson, ofJson?, Arithmetic.tag, Arithmetic.ofTag?, ihleft, ihright]

namespace Formula

mutual

theorem literally?_toJson : ∀ f : Formula, literally? f.toJson = some f
  | const _ | literal .. => rfl
  | atom left op right => by
      show (do
        let left ← Term.ofJson? left.toJson
        let op ← Comparison.ofJson? op.toJson
        let right ← Term.ofJson? right.toJson
        return atom left op right) = _
      rw [Term.ofJson?_toJson, Comparison.ofJson?_toJson, Term.ofJson?_toJson]
      rfl
  | not body | next body | always body | eventually body => by
      simp [toJson, literally?, literally?_toJson body]
  | untl left right | release left right => by
      simp [toJson, literally?, literally?_toJson left, literally?_toJson right]
  | junction .and fs | junction .or fs => by
      simp [toJson, literally?, literallyAll?_toJsonAll fs]

theorem literallyAll?_toJsonAll : ∀ fs : List Formula, literallyAll? (toJsonAll fs) = some fs
  | [] => rfl
  | f :: fs => by
      simp [toJsonAll, literallyAll?, literally?_toJson f, literallyAll?_toJsonAll fs]

end

/-!
## Canonical shape

Putting junctions in canonical shape from the leaves up leaves none that is not, keeps
the meaning, and changes nothing in a formula that has this shape.
-/

theorem isValid_normalize (f : Formula) : f.normalize.IsValid := by
  induction f using induction_on_children with
  | step f ih =>
      cases f with
      | const | literal | atom => rfl
      | not body | next body | always body | eventually body =>
          have hbody : body.normalize.IsValid := ih body List.mem_cons_self
          exact hbody
      | untl left right =>
          exact isValid_untl.mpr
            ⟨ih left List.mem_cons_self, ih right (List.mem_cons_of_mem _ List.mem_cons_self)⟩
      | release left right =>
          exact isValid_release.mpr
            ⟨ih left List.mem_cons_self, ih right (List.mem_cons_of_mem _ List.mem_cons_self)⟩
      | junction k fs =>
          show (join k (normalizeAll fs)).IsValid
          rw [normalizeAll_eq_map]
          apply isValid_join
          intro g hg
          rcases List.mem_map.mp hg with ⟨f, hf, rfl⟩
          exact ih f hf

theorem normalize_eq_self {f : Formula} (hf : f.IsValid) : f.normalize = f := by
  induction f using induction_on_children with
  | step f ih =>
      have hparts : ∀ g ∈ f.children, g.normalize = g := fun g hg => ih g hg (hf.children hg)
      cases f with
      | const | literal | atom => rfl
      | not body | next body | always body | eventually body =>
          rw [normalize, hparts body List.mem_cons_self]
      | untl left right | release left right =>
          rw [normalize, hparts left List.mem_cons_self,
            hparts right (List.mem_cons_of_mem _ List.mem_cons_self)]
      | junction k fs =>
          have hmap : fs.map normalize = fs :=
            (List.map_congr_left (g := id) hparts).trans (List.map_id fs)
          rw [normalize, normalizeAll_eq_map, hmap, join_eq_junction hf]

theorem equivalent_normalize (f : Formula) : Equivalent f f.normalize := by
  induction f using induction_on_children with
  | step f ih =>
      have hcongr := isCongruence_equivalent
      cases f with
      | const | literal | atom => exact Equivalent.refl _
      | not body => exact hcongr.not (ih body List.mem_cons_self)
      | next body => exact hcongr.next (ih body List.mem_cons_self)
      | always body => exact hcongr.always (ih body List.mem_cons_self)
      | eventually body => exact hcongr.eventually (ih body List.mem_cons_self)
      | untl left right =>
          exact hcongr.untl (ih left List.mem_cons_self)
            (ih right (List.mem_cons_of_mem _ List.mem_cons_self))
      | release left right =>
          exact hcongr.release (ih left List.mem_cons_self)
            (ih right (List.mem_cons_of_mem _ List.mem_cons_self))
      | junction k fs =>
          show Equivalent (junction k fs) (join k (normalizeAll fs))
          rw [normalizeAll_eq_map]
          exact hcongr.junction normalize ih

theorem isValid_of_ofJson? {document : Json} {f : Formula} (h : ofJson? document = some f) :
    f.IsValid := by
  rcases Option.map_eq_some_iff.mp h with ⟨g, _, rfl⟩
  exact g.isValid_normalize

theorem ofJson?_toJson {f : Formula} (hf : f.IsValid) : ofJson? f.toJson = some f := by
  rw [ofJson?, literally?_toJson, Option.map_some, normalize_eq_self hf]

/-!
## What a document means

A tree may be spelled out by several documents, which are read as one formula.
-/

/-- Valid formulas are read from the documents that they are written as.  Every tree `d`,
whatever the operands of its junctions, has a document.  From any document of it, a formula is
read that holds where `d` does and that further writing and reading leaves alone. -/
theorem document_roundTrip :
    (∀ f : Formula, f.validate = .ok () → ofJson? f.toJson = some f) ∧
    (∀ d : Formula, literally? d.toJson = some d) ∧
    ∀ (document : Json) (d : Formula), literally? document = some d →
      ∃ f, ofJson? document = some f ∧
        (∀ (w : Lasso) (i : Nat), w.holdsAt f i = true ↔ d.Holds w.word i) ∧
        ofJson? f.toJson = some f := by
  refine ⟨fun f hf => ofJson?_toJson hf, literally?_toJson, ?_⟩
  intro document d hliterally
  have hread : ofJson? document = some d.normalize := by
    rw [ofJson?, hliterally, Option.map_some]
  refine ⟨d.normalize, hread, ?_, ofJson?_toJson d.isValid_normalize⟩
  intro w i
  rw [w.holdsAt_iff_holds_word]
  exact (equivalent_normalize d w.word i).symm

theorem document_roundTrip_nested :
    let p := proposition "é🦀"
    let f := untl (junction .and [literal "q" true, p]) (atom (.var "x") .geq (.int .minValue))
    let spelled := Json.object [("Literal", .object
      [("negated", .bool false), ("note", .null), ("name", .string "é🦀")])]
    let document := Json.object [("And", .array [f.toJson, spelled,
      .object [("And", .array [spelled, f.toJson])], .object [("And", .array [])]])]
    let d := junction .and [f, p, junction .and [p, f], junction .and []]
    f.validate = .ok () ∧ ofJson? f.toJson = some f ∧
      literally? document = some d ∧
      ∃ g, ofJson? document = some g ∧
        (∀ (w : Lasso) (i : Nat), w.holdsAt g i = true ↔ d.Holds w.word i) ∧
        ofJson? g.toJson = some g := by
  intro p f spelled document d
  have hf : f.validate = .ok () := rfl
  have hdocument : literally? document = some d := rfl
  rcases document_roundTrip with ⟨hvalid, _, hread⟩
  exact ⟨hf, hvalid f hf, hdocument, hread document d hdocument⟩

end Formula
end LinearTemporal

import LinearTemporal.Proofs.Documents
import LinearTemporal.Proofs.Rereading

/-!
# Where formulas come from

Formulas are joined from others, read from a document, read from a text, put in place of
others by a rule, or returned by a simplification.  None of these ways gives a formula that
`validate` complains about: a document is put in canonical shape from the leaves up, however
its junctions are listed, and the other ways start from formulas in canonical shape.
-/

namespace LinearTemporal

open Formula

namespace Rule

theorem isValid_of_apply {rule : Rule} (hrule : rule ∈ all) {f g : Formula} (hf : f.IsValid)
    (h : rule.apply f = some g) : g.IsValid :=
  (Step.of_mem_all hrule (transform_of_apply h)).isValid hf

end Rule

/-- Nothing in the library makes a formula of valid formulas, of a document or of a text that
is not valid. -/
theorem validate_eq_ok_of_made :
    (∀ fs : List Formula, (∀ f ∈ fs, f.validate = .ok ()) →
      (conj fs).validate = .ok () ∧ (disj fs).validate = .ok ()) ∧
    (∀ document f, ofJson? document = some f → f.validate = .ok ()) ∧
    (∀ text f, parse text = .ok f → f.validate = .ok ()) ∧
    (∀ rule ∈ Rule.all, ∀ f g, f.validate = .ok () → rule.apply f = some g →
      g.validate = .ok ()) ∧
    ∀ (s : Simplifier) (f : Formula), f.validate = .ok () → (s.run f).1.validate = .ok () := by
  refine ⟨?_, ?_, ?_, ?_, ?_⟩
  · intro fs hfs
    exact ⟨isValid_join hfs, isValid_join hfs⟩
  · intro document f hread
    exact isValid_of_ofJson? hread
  · intro text f hparse
    exact (Surface.isPrintable_of_parse hparse).valid
  · intro rule hrule f g hf happly
    exact Rule.isValid_of_apply hrule hf happly
  · intro s f hf
    exact s.isValid_run hf

theorem validate_eq_ok_of_made_document :
    let p : Formula := .literal "p" false
    let document := Json.object [("And", .array [p.toJson,
      .object [("And", .array [p.toJson, .object [("Or", .array [])]])]])]
    let f : Formula := .not (.junction .and [p, .next p])
    let rule := Rule.modal[0]
    ofJson? document = some (.junction .and [.const false, p]) ∧
      (Formula.junction .and [.const false, p]).validate = .ok () ∧
      parse "X p" = .ok (.next p) ∧ (Formula.next p).validate = .ok () ∧
      f.validate = .ok () ∧ rule ∈ Rule.all ∧
      rule.apply f = some (.junction .or [.literal "p" true, .not (.next p)]) ∧
      (Formula.junction .or [.literal "p" true, .not (.next p)]).validate = .ok () ∧
      (∀ g ∈ [p, f], g.validate = .ok ()) ∧ (conj [p, f]).validate = .ok () ∧
      ((Simplifier.mk .aggressive 64).run f).1.validate = .ok () := by
  intro p document f rule
  have hread : ofJson? document = some (.junction .and [.const false, p]) := by rfl
  have hp : Surface.IsIdentifier "p" :=
    ⟨⟨'p', [], rfl, Surface.isNameStart_iff.mp rfl, nofun⟩, by decide⟩
  have hparse : parse "X p" = .ok (.next p) :=
    parse_eq_readBack (f := .next p) rfl
      (by simpa [p, names, propositionNames, variableNames] using hp) rfl (by decide)
  have hf : f.validate = .ok () := rfl
  have hrule : rule ∈ Rule.all :=
    List.mem_append_left _ (List.mem_append_left _ (List.mem_append_right _ List.mem_cons_self))
  have happly : rule.apply f = some (.junction .or [.literal "p" true, .not (.next p)]) := by rfl
  have hoperands : ∀ g ∈ [p, f], g.validate = .ok () := by
    intro g hg
    rcases List.mem_pair.mp hg with rfl | rfl
    · rfl
    · rfl
  rcases validate_eq_ok_of_made with ⟨hjoin, hdocument, htext, hfire, hrun⟩
  exact ⟨hread, hdocument _ _ hread, hparse, htext _ _ hparse, hf, hrule, happly,
    hfire rule hrule f _ hf happly, hoperands, (hjoin _ hoperands).1, hrun ⟨.aggressive, 64⟩ f hf⟩

end LinearTemporal

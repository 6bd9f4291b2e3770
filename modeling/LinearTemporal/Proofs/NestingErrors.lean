import Mathlib.Control.Monad.Basic
import LinearTemporal.Proofs.ReaderErrors
import LinearTemporal.Proofs.TokenLayout

/-!
# Where nesting is too deep

Every level that is open was opened by a token of its own.  So before the token whose level goes
beyond the limit there are as many tokens as levels may be open, and the error names the place of
the token after it.  Where the text ends instead, there is no such place, and the error names the
start of the text.
-/

namespace LinearTemporal
namespace Surface

/-!
No more levels have been opened than tokens have been taken, and the level that goes
beyond the limit is that of the token before the place of the error.
-/

theorem readInteger_ne_tooDeep {negative : Bool} {digits : String} {place offset : Nat} :
    readInteger negative digits place ≠ .error (.tooDeep offset) := by
  unfold readInteger
  dsimp only
  split
  · exact nofun
  · split <;> exact nofun

namespace Cursor

theorem Reaches.exists_taken {c c' : Cursor} (h : c.Reaches c') :
    ∃ taken, c.rest = taken ++ c'.rest ∧ c'.depth ≤ c.depth + taken.length := by
  induction h with
  | refl c => exact ⟨[], rfl, Nat.le_refl _⟩
  | take _ ih =>
      rename_i located rest depth c _
      rcases ih with ⟨taken, hrest, hdepth⟩
      refine ⟨located :: taken, congrArg (located :: ·) hrest, ?_⟩
      rw [List.length_cons]
      exact Nat.le_trans hdepth (Nat.add_le_add_left (Nat.le_succ _) depth)
  | enter _ _ ih =>
      rename_i located rest depth c _ _
      rcases ih with ⟨taken, hrest, hdepth⟩
      refine ⟨located :: taken, congrArg (located :: ·) hrest, ?_⟩
      rw [List.length_cons, ← Nat.add_assoc, Nat.add_right_comm]
      exact hdepth

theorem Raises.exists_opener {c : Cursor} {offset : Nat} (h : c.Raises (.tooDeep offset)) :
    ∃ opener after, c.rest = opener :: after ∧ nestingLimit ≤ c.depth ∧
      offset = (after.head?.map Located.offset).getD 0 := by
  generalize he : ParseError.tooDeep offset = e at h
  cases h with
  | unexpected c expected =>
      rcases c with ⟨_ | ⟨located, rest⟩, depth⟩ <;> cases he
  | overflow hinteger | negativeOverflow hinteger =>
      cases he
      exact absurd hinteger readInteger_ne_tooDeep
  | tooDeep hdepth =>
      cases he
      exact ⟨_, _, rfl, hdepth, rfl⟩

end Cursor

theorem exists_opener_of_readTree {tokens : List Located} {offset : Nat}
    (h : readTree tokens = .error (.tooDeep offset)) :
    ∃ before opener after, tokens = before ++ opener :: after ∧ nestingLimit ≤ before.length ∧
      offset = (after.head?.map Located.offset).getD 0 := by
  by_cases hne : tokens = []
  · cases hne
    cases h
  · rcases fails_of_readTree hne h with ⟨c, hreaches, hraises⟩
    rcases hreaches.exists_taken with ⟨before, htokens, hdepth⟩
    rcases hraises.exists_opener with ⟨opener, after, hrest, hfull, hoffset⟩
    refine ⟨before, opener, after, hrest ▸ htokens, ?_, hoffset⟩
    rw [Cursor.start, Nat.zero_add] at hdepth
    exact Nat.le_trans hfull hdepth

/-- Number of tokens that start before a place in the text. -/
def countBefore (tokens : List Located) (offset : Nat) : Nat :=
  tokens.countP (fun located => located.offset < offset)

theorem length_le_countBefore {before after : List Located} {next : Located}
    (h : (before ++ next :: after).Pairwise (fun a b => a.offset < b.offset)) :
    before.length ≤ countBefore (before ++ next :: after) next.offset := by
  have hbefore : ∀ located ∈ before, decide (located.offset < next.offset) = true := by
    intro located hlocated
    exact decide_eq_true ((List.pairwise_append.mp h).2.2 located hlocated next List.mem_cons_self)
  unfold countBefore
  rw [List.countP_append, List.countP_eq_length.mpr hbefore]
  exact Nat.le_add_right _ _

/-!
A row of negation signs is as many tokens, one byte after the other.
-/

theorem scan_replicate_not (n offset : Nat) (cs : List Char) :
    scan offset (List.replicate n '!' ++ cs) = (do
      let rest ← scan (offset + n) cs
      return (List.range' offset n).map (fun place => ⟨.not, place⟩) ++ rest) := by
  induction n generalizing offset with
  | zero => simp
  | succ n ih =>
      have hread : lexeme? ('!' :: (List.replicate n '!' ++ cs)) = some (.not, ['!']) := rfl
      have hlength : byteLength ['!'] = 1 := rfl
      rw [List.replicate_succ, List.cons_append, scan_lexeme rfl hread, List.length_singleton,
        Nat.sub_self, List.drop_zero, hlength, ih, Nat.add_assoc, Nat.add_comm 1 n,
        List.range'_succ, List.map_cons, bind_assoc]
      simp only [pure_bind, List.cons_append]

theorem tokenize_replicate_not {n : Nat} {cs : List Char} {rest : List Located}
    (h : scan n cs = .ok rest) :
    tokenize (String.ofList (List.replicate n '!' ++ cs)) =
      .ok ((List.range' 0 n).map (fun place => ⟨.not, place⟩) ++ rest) := by
  rw [tokenize, String.toList_ofList, scan_replicate_not, Nat.zero_add, h]
  rfl

end Surface

namespace Formula

open Surface

/-- An error that nesting is too deep names the place of the token after the one that opens a level
beyond the limit, and more tokens than levels may be open start before that place.  Where no token
comes after it, the error names the start of the text. -/
theorem parse_tooDeep {text : String} {offset : Nat} (h : parse text = .error (.tooDeep offset)) :
    ∃ before opener after, tokenize text = .ok (before ++ opener :: after) ∧
      nestingLimit ≤ before.length ∧
      (after = [] → offset = 0) ∧
      (after ≠ [] → (∃ token, after.head? = some ⟨token, offset⟩) ∧
        nestingLimit + 1 ≤ countBefore (before ++ opener :: after) offset) := by
  rcases bind_eq_error.mp h with hscan | ⟨tokens, htokens, hread⟩
  · rcases exists_of_scan_error hscan with ⟨_, _, _, _, _, heq⟩
    cases heq
  · have htree : readTree tokens = .error (.tooDeep offset) := by
      rcases bind_eq_error.mp hread with htree | ⟨_, _, hreturn⟩
      · exact htree
      · cases hreturn
    rcases exists_opener_of_readTree htree with ⟨before, opener, after, rfl, hfull, rfl⟩
    refine ⟨before, opener, after, htokens, hfull, ?_, ?_⟩
    · rintro rfl
      rfl
    · intro hne
      cases after with
      | nil => exact absurd rfl hne
      | cons next after =>
          refine ⟨⟨next.token, rfl⟩, ?_⟩
          have hpairwise := (isLaidOut_of_scan htokens).pairwise
          rw [List.append_cons] at hpairwise ⊢
          have hcount := length_le_countBefore hpairwise
          rw [List.length_append, List.length_singleton] at hcount
          exact Nat.le_trans (Nat.add_le_add_right hfull 1) hcount

theorem parse_tooDeep_not :
    let text := String.ofList (List.replicate 257 '!' ++ ['p'])
    parse text = .error (.tooDeep 257) ∧
    ∃ tokens, tokenize text = .ok tokens ∧ 257 ≤ countBefore tokens 257 := by
  intro text
  have hlast : scan 257 ['p'] = .ok [⟨.name "p", 257⟩] := by decide +kernel
  have htokens := tokenize_replicate_not hlast
  have herror : parse text = .error (.tooDeep 257) := by
    unfold parse
    rw [htokens]
    decide +kernel
  rcases parse_tooDeep herror with ⟨before, opener, after, hsplit, _, hend, hplace⟩
  refine ⟨herror, _, hsplit, (hplace fun hafter => ?_).2⟩
  exact absurd (hend hafter) (by decide)

/-- Without what is negated the error names the start of the text, where no token has started. -/
theorem parse_tooDeep_at_end :
    let text := String.ofList (List.replicate 257 '!' ++ [' '])
    parse text = .error (.tooDeep 0) ∧
    ∃ tokens, tokenize text = .ok tokens ∧ tokens.length = 257 ∧ countBefore tokens 0 = 0 := by
  intro text
  have hlast : scan 257 [' '] = .ok [] := scan_eq_nil_iff.mpr (List.all_eq_true.mp (by decide))
  have htokens := tokenize_replicate_not hlast
  have herror : parse text = .error (.tooDeep 0) := by
    unfold parse
    rw [htokens]
    decide +kernel
  refine ⟨herror, _, htokens, by simp, ?_⟩
  simp [countBefore]

end Formula
end LinearTemporal

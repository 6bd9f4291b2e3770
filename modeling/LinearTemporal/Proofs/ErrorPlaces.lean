import Mathlib.Control.Monad.Basic
import LinearTemporal.Proofs.Lexing
import LinearTemporal.Proofs.ReaderErrors

/-!
# What errors say about their place

Every place that an error of reading names is the place of a character or a token, and what the
error says stands there does stand there.  Cursors within reach of the start have only tokens of
the text before them, so what is raised at one of them is about tokens of the text; and a token
stands where its characters do.
-/

namespace LinearTemporal
namespace Surface

/-!
## Errors and tokens

An error that is raised among some tokens fits them if what it says is so.  Numbers have
digits and nothing else, so what denotes an integer but cannot be read is out of range.
-/

/-- The literal is a number among the tokens, or a sign directly before a number; it starts at the
offset, and the integer that it denotes does not fit into 64 bits. -/
def OverflowsAt (tokens : List Located) (literal : String) (offset : Nat) : Prop :=
  (⟨.digits literal, offset⟩ ∈ tokens ∧
    Int64.maxValue.toInt < Nat.ofDigitChars 10 literal.toList 0) ∨
  ∃ digits place, literal = "-" ++ digits ∧
    [⟨.arithmetic .sub, offset⟩, ⟨.digits digits, place⟩] <:+: tokens ∧
    -(Nat.ofDigitChars 10 digits.toList 0 : Int) < Int64.minValue.toInt

/-- What an error that is raised among these tokens says is so. -/
def ParseError.Fits (tokens : List Located) : ParseError → Prop
  | empty => False
  | unexpectedChar _ _ => False
  | integerOverflow literal offset => OverflowsAt tokens literal offset
  | unexpectedToken found offset _ => ⟨found, offset⟩ ∈ tokens
  | unexpectedEnd _ => True
  | tooDeep offset => offset = 0 ∨ ∃ token, ⟨token, offset⟩ ∈ tokens

def HaveDigits (tokens : List Located) : Prop :=
  ∀ digits offset, ⟨.digits digits, offset⟩ ∈ tokens →
    decimal? digits.toList = some (Nat.ofDigitChars 10 digits.toList 0)

variable {tokens : List Located}

theorem Cursor.Reaches.isSuffix {c c' : Cursor} (h : c.Reaches c') : c'.rest <:+ c.rest := by
  induction h with
  | refl c => exact List.suffix_rfl
  | take _ ih => exact ih.trans (List.suffix_cons _ _)
  | enter _ _ ih => exact ih.trans (List.suffix_cons _ _)

section

variable {digits : String} {offset m : Nat} {e : ParseError}

theorem readInteger_eq_error (negative : Bool) {value : Int}
    (hvalue : integer? ((if negative then "-" else "") ++ digits).toList = some value)
    (h : readInteger negative digits offset = .error e) :
    e = .integerOverflow ((if negative then "-" else "") ++ digits) offset ∧
      (value < Int64.minValue.toInt ∨ Int64.maxValue.toInt < value) := by
  unfold readInteger at h
  simp only [hvalue] at h
  split at h
  · cases h
  · rename_i hrange
    cases h
    exact ⟨rfl, (Classical.not_and_iff_not_or_not.mp hrange).imp Int.not_le.mp Int.not_le.mp⟩

theorem readInteger_false_eq_error (hdigits : decimal? digits.toList = some m)
    (h : readInteger false digits offset = .error e) :
    e = .integerOverflow digits offset ∧ Int64.maxValue.toInt < m := by
  have hsign : (if false = true then "-" else "") ++ digits = digits := String.empty_append
  have hvalue : integer? digits.toList = some (m : Int) := integer?_of_decimal? hdigits
  rw [← hsign] at hvalue
  rcases readInteger_eq_error false hvalue h with ⟨rfl, hsmall | hlarge⟩
  · have hmin : Int64.minValue.toInt < 0 := by decide
    exact absurd (Int.lt_trans hsmall hmin) (Int.not_lt.mpr (Int.natCast_nonneg m))
  · exact ⟨congrArg (ParseError.integerOverflow · offset) hsign, hlarge⟩

theorem readInteger_true_eq_error (hdigits : decimal? digits.toList = some m)
    (h : readInteger true digits offset = .error e) :
    e = .integerOverflow ("-" ++ digits) offset ∧ -(m : Int) < Int64.minValue.toInt := by
  have hvalue : integer? ("-" ++ digits).toList = some (-(m : Int)) := by
    rw [String.toList_append]
    exact (integer?_minus _).trans (congrArg _ hdigits)
  rcases readInteger_eq_error true hvalue h with ⟨rfl, hsmall | hlarge⟩
  · exact ⟨rfl, hsmall⟩
  · have hmax : 0 < Int64.maxValue.toInt := by decide
    have hneg : -(m : Int) ≤ 0 := Int.neg_nonpos_of_nonneg (Int.natCast_nonneg m)
    exact absurd (Int.lt_trans hmax hlarge) (Int.not_lt.mpr hneg)

end

theorem Cursor.Raises.fits {c : Cursor} {e : ParseError} (hdigits : HaveDigits tokens)
    (hc : c.rest <:+ tokens) (h : c.Raises e) : e.Fits tokens := by
  cases h with
  | unexpected c expected =>
      rcases c with ⟨rest, depth⟩
      cases rest with
      | nil => exact True.intro
      | cons located rest => exact hc.subset List.mem_cons_self
  | overflow hinteger =>
      have hmem := hc.subset List.mem_cons_self
      rcases readInteger_false_eq_error (hdigits _ _ hmem) hinteger with ⟨rfl, hlarge⟩
      exact Or.inl ⟨hmem, hlarge⟩
  | negativeOverflow hinteger =>
      have hmem := hc.subset (List.mem_cons_of_mem _ List.mem_cons_self)
      rcases readInteger_true_eq_error (hdigits _ _ hmem) hinteger with ⟨rfl, hsmall⟩
      have hadjacent := (List.prefix_append [_, _] _).isInfix.trans hc.isInfix
      exact Or.inr ⟨_, _, rfl, hadjacent, hsmall⟩
  | tooDeep hdepth =>
      rename_i located rest depth
      cases rest with
      | nil => exact Or.inl rfl
      | cons next rest =>
          exact Or.inr ⟨next.token, hc.subset (List.mem_cons_of_mem _ List.mem_cons_self)⟩

theorem fits_of_readTree {e : ParseError} (hdigits : HaveDigits tokens) (hne : tokens ≠ [])
    (h : readTree tokens = .error e) : e.Fits tokens := by
  rcases fails_of_readTree hne h with ⟨c, hreaches, hraises⟩
  exact hraises.fits hdigits hreaches.isSuffix

/-!
## Offsets in a text

An offset is a place of the text if some character starts there.
-/

theorem utf8ByteSize_ofList (cs : List Char) :
    (String.ofList cs).utf8ByteSize = byteLength cs := by
  induction cs with
  | nil => rfl
  | cons c cs ih =>
      rw [String.ofList_cons, String.utf8ByteSize_append, String.utf8ByteSize_singleton, ih]
      rfl

def IsPlace (text : String) (offset : Nat) : Prop :=
  ∃ before c after, text.toList = before ++ c :: after ∧ offset = byteLength before

namespace IsPlace

variable {text : String} {offset : Nat}

theorem isValid (h : IsPlace text offset) :
    offset < text.utf8ByteSize ∧ String.Pos.Raw.IsValid text ⟨offset⟩ := by
  rcases h with ⟨before, c, after, htext, rfl⟩
  have hsplit : text = String.ofList before ++ String.ofList (c :: after) := by
    rw [← String.ofList_append, ← htext, String.ofList_toList]
  constructor
  · rw [hsplit, String.utf8ByteSize_append, utf8ByteSize_ofList, utf8ByteSize_ofList]
    exact Nat.lt_add_of_pos_right (Nat.add_pos_left c.utf8Size_pos _)
  · refine String.Pos.Raw.isValid_iff_exists_append.mpr ⟨_, _, hsplit, ?_⟩
    rw [← utf8ByteSize_ofList]
    rfl

end IsPlace

theorem isPlace_of_mem {text : String} {located : Located} (h : tokenize text = .ok tokens)
    (hlocated : located ∈ tokens) : IsPlace text located.offset := by
  rcases exists_of_mem_scan h hlocated with ⟨before, token, after, htext, hlexeme, hoffset⟩
  rw [Nat.zero_add] at hoffset
  cases token with
  | nil => exact absurd rfl (lexeme?_cases hlexeme).1
  | cons c token => exact ⟨before, c, token ++ after, htext, hoffset⟩

theorem isPlace_zero {text : String} (h : tokenize text = .ok tokens) (hne : tokens ≠ []) :
    IsPlace text 0 := by
  cases htext : text.toList with
  | nil =>
      unfold tokenize at h
      rw [htext, scan_nil] at h
      cases h
      exact absurd rfl hne
  | cons c cs => exact ⟨[], c, cs, htext, rfl⟩

theorem haveDigits_of_tokenize {text : String} (h : tokenize text = .ok tokens) :
    HaveDigits tokens := by
  intro digits offset hmem
  rcases exists_of_mem_scan h hmem with ⟨_, _, _, _, hlexeme, _⟩
  exact if_pos (isDigit_of_lexeme hlexeme)

theorem ParseError.Fits.isValid {text : String} {e : ParseError} {offset : Nat}
    (h : e.Fits tokens) (htokens : tokenize text = .ok tokens) (hne : tokens ≠ [])
    (hoffset : e.offset? = some offset) :
    offset < text.utf8ByteSize ∧ String.Pos.Raw.IsValid text ⟨offset⟩ := by
  cases e with
  | empty => exact h.elim
  | unexpectedChar c place => exact h.elim
  | unexpectedEnd expected => cases hoffset
  | unexpectedToken found place expected =>
      cases hoffset
      exact (isPlace_of_mem htokens h).isValid
  | integerOverflow literal place =>
      cases hoffset
      rcases h with ⟨hdigits, _⟩ | ⟨digits, after, _, hadjacent, _⟩
      · exact (isPlace_of_mem htokens hdigits).isValid
      · exact (isPlace_of_mem htokens (hadjacent.subset List.mem_cons_self)).isValid
  | tooDeep place =>
      cases hoffset
      rcases h with rfl | ⟨token, hmem⟩
      · exact (isPlace_zero htokens hne).isValid
      · exact (isPlace_of_mem htokens hmem).isValid

end Surface

namespace Formula

open Surface

/-!
## Errors of a text

An error of scanning is about a character, and all others are about tokens.
-/

/-- What an error says about the text that could not be read is so.  Only blanks make a text empty,
the place of an error is in the text, and a character, token or literal that it names is there. -/
theorem parse_error_points {text : String} {e : ParseError} (h : parse text = .error e) :
    (e = .empty ↔ ∀ c ∈ text.toList, Text.isBlank c = true) ∧
    (∀ offset, e.offset? = some offset →
      offset < text.utf8ByteSize ∧ String.Pos.Raw.IsValid text ⟨offset⟩) ∧
    (∀ c offset, e = .unexpectedChar c offset → ∃ before after : String,
      text = before ++ String.singleton c ++ after ∧ before.utf8ByteSize = offset) ∧
    (∀ found offset expected, e = .unexpectedToken found offset expected →
      ∃ tokens, tokenize text = .ok tokens ∧
        ∃ located ∈ tokens, located.offset = offset ∧ located.token.render = found.render) ∧
    (∀ literal offset, e = .integerOverflow literal offset →
      ∃ tokens, tokenize text = .ok tokens ∧ OverflowsAt tokens literal offset) := by
  rcases bind_eq_error.mp h with hscan | ⟨tokens, htokens, hread⟩
  · rcases exists_of_scan_error hscan with ⟨before, c, after, htext, hc, rfl⟩
    rw [Nat.zero_add]
    refine ⟨⟨nofun, fun hall => ?_⟩, ?_, ?_, nofun, nofun⟩
    · have hmem : c ∈ text.toList := by
        rw [htext]
        exact List.mem_append_right before List.mem_cons_self
      rw [hall c hmem] at hc
      cases hc
    · intro offset hoffset
      cases hoffset
      exact IsPlace.isValid ⟨before, c, after, htext, rfl⟩
    · intro d offset heq
      cases heq
      refine ⟨String.ofList before, String.ofList after, ?_, utf8ByteSize_ofList before⟩
      rw [String.singleton_eq_ofList, ← String.ofList_append, ← String.ofList_append,
        List.append_assoc, List.singleton_append, ← htext, String.ofList_toList]
  · have htree : readTree tokens = .error e := by
      rcases bind_eq_error.mp hread with htree | ⟨_, _, hreturn⟩
      · exact htree
      · cases hreturn
    by_cases hne : tokens = []
    · cases hne
      cases htree
      exact ⟨⟨fun _ => scan_eq_nil_iff.mp htokens, fun _ => rfl⟩, nofun, nofun, nofun, nofun⟩
    · have hfits := fits_of_readTree (haveDigits_of_tokenize htokens) hne htree
      refine ⟨⟨?_, fun hall => ?_⟩, fun offset => hfits.isValid htokens hne, ?_, ?_, ?_⟩
      · rintro rfl
        exact hfits.elim
      · rw [tokenize, scan_eq_nil_iff.mpr hall] at htokens
        cases htokens
        exact absurd rfl hne
      · rintro c offset rfl
        exact hfits.elim
      · rintro found offset expected rfl
        exact ⟨tokens, htokens, _, hfits, rfl, rfl⟩
      · rintro literal offset rfl
        exact ⟨tokens, htokens, hfits⟩

theorem parse_error_points_overflow :
    let text := "x < \u00a0- 9223372036854775809"
    let literal := "-9223372036854775809"
    parse text = .error (.integerOverflow literal 6) ∧
    (∃ tokens, tokenize text = .ok tokens ∧ OverflowsAt tokens literal 6) ∧
    6 < text.utf8ByteSize ∧ String.Pos.Raw.IsValid text ⟨6⟩ := by
  intro text literal
  have herror : parse text = .error (.integerOverflow literal 6) := by decide +kernel
  rcases parse_error_points herror with ⟨_, hplace, _, _, hliteral⟩
  exact ⟨herror, hliteral literal 6 rfl, hplace 6 rfl⟩

end Formula
end LinearTemporal

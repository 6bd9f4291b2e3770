import Mathlib.Control.Monad.Basic
import LinearTemporal.Proofs.Lexing

/-!
# The layout of tokens in a text

A text that can be scanned is the lexemes of its tokens, one after the other, with blanks before,
between and after them, and nothing else.  A lexeme is as long as it can be: a word or a number
ends where its kind of characters does, and no other symbol that stands at the place of a symbol is
longer.  This says all about a scan, so tokens can be laid out as any text with that property: with
blanks after each of them, they are read again.
-/

namespace LinearTemporal
namespace Surface

/-!
## Lexemes

A run of characters of one kind ends before what is not of this kind.  No symbol stands
in the table after one that it starts with, so the first one that a text starts with is
the longest; and symbols start with characters that no word and no number starts with.
-/

/-- The characters stand for the token, given what comes after them. -/
inductive IsLexeme : Token → List Char → List Char → Prop where
  | word {c : Char} {cs after : List Char} :
      IsNameStart c → (∀ d ∈ cs, IsNamePart d) → (∀ d ∈ after.head?, ¬ IsNamePart d) →
      IsLexeme (Token.ofWord (String.ofList (c :: cs))) (c :: cs) after
  | number {c : Char} {cs after : List Char} :
      (∀ d ∈ c :: cs, d.isDigit = true) → (∀ d ∈ after.head?, d.isDigit = false) →
      IsLexeme (.digits (String.ofList (c :: cs))) (c :: cs) after
  | symbol {symbol : String} {token : Token} {after : List Char} :
      (symbol, token) ∈ Token.symbols →
      (∀ other ∈ Token.symbols, other.1.toList <+: symbol.toList ++ after →
        other.1.length ≤ symbol.length) →
      IsLexeme token symbol.toList after

section

variable {p : Char → Bool} {cs after : List Char}

theorem takeWhile_append_eq (hcs : ∀ d ∈ cs, p d = true) (hafter : ∀ d ∈ after.head?, p d = false) :
    (cs ++ after).takeWhile p = cs := by
  rw [List.takeWhile_append_of_pos hcs]
  cases after with
  | nil => exact List.append_nil cs
  | cons d after => rw [List.takeWhile_cons_of_neg (by simp [hafter d rfl]), List.append_nil]

theorem not_of_head?_dropWhile : ∀ d ∈ (cs.dropWhile p).head?, p d = false := by
  intro d hd
  have hhead := List.head?_dropWhile_not p cs
  rw [Option.mem_def.mp hd] at hhead
  simpa using hhead

end

theorem symbols_pairwise :
    Token.symbols.Pairwise (fun entry later => ¬ entry.1.toList <+: later.1.toList) := by
  decide +kernel

theorem find?_symbols_eq_some_iff {symbol : String} {token : Token} {cs : List Char} :
    Token.symbols.find? (fun entry => entry.1.toList.isPrefixOf cs) = some (symbol, token) ↔
      (symbol, token) ∈ Token.symbols ∧ symbol.toList <+: cs ∧
      ∀ other ∈ Token.symbols, other.1.toList <+: cs → other.1.length ≤ symbol.length := by
  have hpairwise := symbols_pairwise
  constructor
  · intro h
    rcases List.find?_eq_some_iff_append.mp h with ⟨hfound, before, after, hsymbols, hbefore⟩
    have hprefix := List.isPrefixOf_iff_prefix.mp hfound
    refine ⟨List.mem_of_find?_eq_some h, hprefix, ?_⟩
    intro other hother hstarts
    rw [hsymbols] at hother hpairwise
    rcases List.mem_append.mp hother with hearlier | hlater
    · have hmissed := hbefore other hearlier
      rw [List.isPrefixOf_iff_prefix.mpr hstarts] at hmissed
      cases hmissed
    · rcases List.mem_cons.mp hlater with rfl | hlater
      · exact Nat.le_refl _
      · have hnot := (List.pairwise_cons.mp (List.pairwise_append.mp hpairwise).2.1).1 _ hlater
        have hshorter := (List.prefix_or_prefix_of_prefix hstarts hprefix).resolve_right hnot
        have hle := hshorter.length_le
        rwa [String.length_toList, String.length_toList] at hle
  · rintro ⟨hmem, hprefix, hlongest⟩
    cases hfound : Token.symbols.find? (fun entry => entry.1.toList.isPrefixOf cs) with
    | none =>
        have hmissed := List.find?_eq_none.mp hfound _ hmem
        exact absurd (List.isPrefixOf_iff_prefix.mpr hprefix) hmissed
    | some found =>
        rcases List.find?_eq_some_iff_append.mp hfound with
          ⟨hstarts, before, after, hsymbols, hbefore⟩
        have hstarts := List.isPrefixOf_iff_prefix.mp hstarts
        have hle := hlongest found (List.mem_of_find?_eq_some hfound) hstarts
        rw [← String.length_toList, ← String.length_toList] at hle
        have hpart := List.prefix_of_prefix_length_le hstarts hprefix hle
        rw [hsymbols] at hmem hpairwise
        rcases List.mem_append.mp hmem with hearlier | hlater
        · have hmissed := hbefore _ hearlier
          rw [List.isPrefixOf_iff_prefix.mpr hprefix] at hmissed
          cases hmissed
        · rcases List.mem_cons.mp hlater with heq | hlater
          · rw [heq]
          · have hnot := (List.pairwise_cons.mp (List.pairwise_append.mp hpairwise).2.1).1 _ hlater
            exact absurd hpart hnot

theorem head_symbols {symbol : String} {token : Token} (h : (symbol, token) ∈ Token.symbols) :
    ∃ c cs, symbol.toList = c :: cs ∧ isNameStart c = false ∧ c.isDigit = false ∧
      Text.isBlank c = false := by
  have hall : Token.symbols.all (fun entry => entry.1.toList.head?.any (fun c =>
      !isNameStart c && !c.isDigit && !Text.isBlank c)) = true := by
    decide +kernel
  have hsymbol := List.all_eq_true.mp hall _ h
  cases hcs : symbol.toList with
  | nil => simp [hcs] at hsymbol
  | cons c cs =>
      simp only [hcs, List.head?_cons, Option.any_some, Bool.and_eq_true, Bool.not_eq_true',
        and_assoc] at hsymbol
      exact ⟨c, cs, rfl, hsymbol⟩

theorem lexeme?_eq_of_isLexeme {token : Token} {text after : List Char}
    (h : IsLexeme token text after) : lexeme? (text ++ after) = some (token, text) := by
  cases h with
  | word hstart hword hafter =>
      rename_i c cs
      unfold lexeme?
      rw [List.cons_append]
      dsimp only
      rw [if_pos (isNameStart_iff.mpr hstart), takeWhile_append_eq]
      · exact fun d hd => isNameChar_iff.mpr (hword d hd)
      · exact fun d hd => Bool.eq_false_iff.mpr fun hd' => hafter d hd (isNameChar_iff.mp hd')
  | number hdigits hafter =>
      rename_i c cs
      rcases List.forall_mem_cons.mp hdigits with ⟨hc, hcs⟩
      unfold lexeme?
      rw [List.cons_append]
      dsimp only
      rw [if_neg (by simp [isNameStart_of_isDigit hc]), if_pos hc, takeWhile_append_eq hcs hafter]
  | symbol hsymbol hlongest =>
      rename_i symbol
      have hfind := find?_symbols_eq_some_iff.mpr
        ⟨hsymbol, List.prefix_append symbol.toList after, hlongest⟩
      rcases head_symbols hsymbol with ⟨c, cs, hcs, hstart, hdigit, _⟩
      rw [hcs, List.cons_append] at hfind ⊢
      unfold lexeme?
      dsimp only
      rw [if_neg (by simp [hstart]), if_neg (by simp [hdigit]), hfind, Option.map_some, hcs]

theorem isLexeme_of_lexeme? {token : Token} {cs text : List Char}
    (h : lexeme? cs = some (token, text)) :
    ∃ after, cs = text ++ after ∧ IsLexeme token text after := by
  cases cs with
  | nil => cases h
  | cons c cs =>
      unfold lexeme? at h
      dsimp only at h
      split at h
      · rename_i hstart
        cases h
        refine ⟨cs.dropWhile isNameChar, ?_, IsLexeme.word (isNameStart_iff.mp hstart) ?_ ?_⟩
        · rw [List.cons_append, List.takeWhile_append_dropWhile]
        · exact fun d hd => isNameChar_iff.mp (List.all_eq_true.mp List.all_takeWhile d hd)
        · intro d hd hpart
          rw [← isNameChar_iff, not_of_head?_dropWhile d hd] at hpart
          cases hpart
      · split at h
        · rename_i hdigit
          cases h
          refine ⟨cs.dropWhile Char.isDigit, ?_, IsLexeme.number ?_ not_of_head?_dropWhile⟩
          · rw [List.cons_append, List.takeWhile_append_dropWhile]
          · exact List.forall_mem_cons.mpr ⟨hdigit, List.all_eq_true.mp List.all_takeWhile⟩
        · rcases Option.map_eq_some_iff.mp h with ⟨⟨symbol, symbolToken⟩, hfind, heq⟩
          cases heq
          rcases find?_symbols_eq_some_iff.mp hfind with ⟨hmem, ⟨after, hafter⟩, hlongest⟩
          rw [← hafter] at hlongest ⊢
          exact ⟨after, rfl, IsLexeme.symbol hmem hlongest⟩

theorem IsLexeme.ne_nil {token : Token} {text after : List Char} (h : IsLexeme token text after) :
    text ≠ [] :=
  (lexeme?_cases (lexeme?_eq_of_isLexeme h)).1

/-!
## Layouts

Scanning finds the tokens that are laid out in a text, and only those.  A lexeme starts
with no blank, so tokens stand in the order of their offsets, no two of them at the same
one.
-/

/-- From the offset on, the text has these tokens where they say, and else only blanks. -/
inductive IsLaidOut : Nat → List Char → List Located → Prop where
  | done {offset : Nat} {blanks : List Char} :
      (∀ c ∈ blanks, Text.isBlank c = true) → IsLaidOut offset blanks []
  | token {offset : Nat} {blanks text after : List Char} {token : Token} {rest : List Located} :
      (∀ c ∈ blanks, Text.isBlank c = true) → IsLexeme token text after →
      IsLaidOut (offset + byteLength blanks + byteLength text) after rest →
      IsLaidOut offset (blanks ++ (text ++ after)) (⟨token, offset + byteLength blanks⟩ :: rest)

theorem IsLaidOut.blank {offset : Nat} {c : Char} {cs : List Char} {tokens : List Located}
    (hc : Text.isBlank c = true) (h : IsLaidOut (offset + c.utf8Size) cs tokens) :
    IsLaidOut offset (c :: cs) tokens := by
  cases h with
  | done hblanks => exact IsLaidOut.done (List.forall_mem_cons.mpr ⟨hc, hblanks⟩)
  | token hblanks hlexeme hrest =>
      rename_i blanks text after token rest
      have hlength : offset + c.utf8Size + byteLength blanks = offset + byteLength (c :: blanks) :=
        Nat.add_assoc ..
      rw [hlength] at hrest ⊢
      exact IsLaidOut.token (List.forall_mem_cons.mpr ⟨hc, hblanks⟩) hlexeme hrest

theorem isLaidOut_of_scan {offset : Nat} {cs : List Char} {tokens : List Located}
    (h : scan offset cs = .ok tokens) : IsLaidOut offset cs tokens := by
  induction offset, cs using scan.induct generalizing tokens with
  | case1 offset =>
      rw [scan_nil] at h
      cases h
      exact IsLaidOut.done (List.forall_mem_nil _)
  | case2 offset c cs hblank ih =>
      rw [scan_blank hblank] at h
      exact (ih h).blank hblank
  | case3 offset c cs hblank hlexeme =>
      rw [scan_unexpected (Bool.eq_false_iff.mpr hblank) hlexeme] at h
      cases h
  | case4 offset c cs hblank token text hlexeme ih =>
      rw [scan_lexeme (Bool.eq_false_iff.mpr hblank) hlexeme] at h
      cases hrest : scan (offset + byteLength text) (cs.drop (text.length - 1)) with
      | error e =>
          rw [hrest] at h
          cases h
      | ok rest =>
          rw [hrest] at h
          cases h
          rcases isLexeme_of_lexeme? hlexeme with ⟨after, hcs, hafter⟩
          have hdrop := append_drop_of_lexeme hlexeme
          rw [hcs, List.append_cancel_left_eq] at hdrop
          rw [hcs]
          exact IsLaidOut.token (List.forall_mem_nil _) hafter (hdrop ▸ ih hrest)

theorem scan_append_of_blank {offset : Nat} {blanks cs : List Char}
    (h : ∀ c ∈ blanks, Text.isBlank c = true) :
    scan offset (blanks ++ cs) = scan (offset + byteLength blanks) cs := by
  induction blanks generalizing offset with
  | nil => rfl
  | cons c blanks ih =>
      rcases List.forall_mem_cons.mp h with ⟨hc, hblanks⟩
      rw [List.cons_append, scan_blank hc, ih hblanks, Nat.add_assoc]
      rfl

theorem IsLexeme.exists_cons {token : Token} {text after : List Char}
    (h : IsLexeme token text after) : ∃ c cs, text = c :: cs ∧ Text.isBlank c = false := by
  cases h with
  | word hstart _ _ => exact ⟨_, _, rfl, isBlank_of_isNamePart (Or.inl hstart)⟩
  | number hdigits _ =>
      have hpart := isNamePart_of_isDigit (hdigits _ List.mem_cons_self)
      exact ⟨_, _, rfl, isBlank_of_isNamePart hpart⟩
  | symbol hsymbol _ =>
      rcases head_symbols hsymbol with ⟨c, cs, hcs, _, _, hblank⟩
      exact ⟨c, cs, hcs, hblank⟩

theorem scan_of_isLaidOut {offset : Nat} {cs : List Char} {tokens : List Located}
    (h : IsLaidOut offset cs tokens) : scan offset cs = .ok tokens := by
  induction h with
  | done hblanks => exact scan_eq_nil_iff.mpr hblanks
  | token hblanks hlexeme hrest ih =>
      rename_i offset blanks text after token rest
      rcases hlexeme.exists_cons with ⟨c, cs, rfl, hc⟩
      have hread := lexeme?_eq_of_isLexeme hlexeme
      have hdrop : (cs ++ after).drop ((c :: cs).length - 1) = after := by simp
      rw [scan_append_of_blank hblanks]
      rw [List.cons_append] at hread ⊢
      rw [scan_lexeme hc hread, hdrop, ih]
      rfl

/-- Scanning finds the tokens that are laid out in a text, and only those. -/
theorem scan_eq_ok_iff {offset : Nat} {cs : List Char} {tokens : List Located} :
    scan offset cs = .ok tokens ↔ IsLaidOut offset cs tokens :=
  ⟨isLaidOut_of_scan, scan_of_isLaidOut⟩

theorem byteLength_pos (c : Char) (cs : List Char) : 0 < byteLength (c :: cs) :=
  Nat.add_pos_left c.utf8Size_pos _

theorem IsLaidOut.le_offset {offset : Nat} {cs : List Char} {tokens : List Located}
    (h : IsLaidOut offset cs tokens) : ∀ located ∈ tokens, offset ≤ located.offset := by
  induction h with
  | done _ => exact nofun
  | token _ _ _ ih =>
      rename_i offset blanks text after token rest _ _ _
      refine List.forall_mem_cons.mpr ⟨Nat.le_add_right _ _, fun located hlocated => ?_⟩
      have hle := ih located hlocated
      omega

theorem IsLaidOut.pairwise {offset : Nat} {cs : List Char} {tokens : List Located}
    (h : IsLaidOut offset cs tokens) : tokens.Pairwise (fun a b => a.offset < b.offset) := by
  induction h with
  | done _ => exact List.Pairwise.nil
  | token _ hlexeme hrest ih =>
      refine List.Pairwise.cons (fun located hlocated => ?_) ih
      rcases hlexeme.exists_cons with ⟨c, cs, rfl, _⟩
      have hle := hrest.le_offset located hlocated
      have hpos := byteLength_pos c cs
      dsimp only
      omega

theorem symbol_of_isLexeme {token : Token} {text after : List Char} (h : IsLexeme token text after)
    (htoken : token ∈ Token.symbols.map Prod.snd) :
    ∃ symbol, text = symbol.toList ∧ (symbol, token) ∈ Token.symbols ∧
      ∀ other ∈ Token.symbols, other.1.toList <+: symbol.toList ++ after →
        other.1.length ≤ symbol.length := by
  have hkeywords : ∀ symbol ∈ Token.symbols.map Prod.snd,
      symbol ∉ Token.keywords.map Prod.snd := by decide
  have hnames : ∀ symbol ∈ Token.symbols.map Prod.snd, ∀ name, symbol ≠ .name name := by
    simp [Token.symbols]
  have hnumbers : ∀ symbol ∈ Token.symbols.map Prod.snd, ∀ number, symbol ≠ .digits number := by
    simp [Token.symbols]
  cases h with
  | word _ _ _ =>
      rename_i c cs _ _ _
      rcases ofWord_cases (String.ofList (c :: cs)) with ⟨hname, _⟩ | hkeyword
      · exact absurd hname (hnames _ htoken _)
      · exact absurd hkeyword (hkeywords _ htoken)
  | number _ _ => exact absurd rfl (hnumbers _ htoken _)
  | symbol hsymbol hlongest => exact ⟨_, rfl, hsymbol, hlongest⟩

/-!
## Tokens with blanks between them

A token can be written out if it is a name that is an identifier, a number that has
digits and nothing else, or a symbol.  Before a blank it is read again.
-/

def Token.IsWritable : Token → Prop
  | name text => IsIdentifier text
  | digits text => text ≠ "" ∧ ∀ c ∈ text.toList, c.isDigit = true
  | _ => True

def spaced : List (Token × String) → String
  | [] => ""
  | (token, gap) :: entries => token.render ++ gap ++ spaced entries

def IsBlankText (text : String) : Prop :=
  ∀ c ∈ text.toList, Text.isBlank c = true

theorem prefix_of_prefix_append {cs ds after : List Char} (hcs : ∀ c ∈ cs, Text.isBlank c = false)
    (hafter : ∀ c ∈ after.head?, Text.isBlank c = true) (h : cs <+: ds ++ after) : cs <+: ds := by
  rcases List.prefix_or_prefix_of_prefix h (List.prefix_append ds after) with hcs' | ⟨beyond, rfl⟩
  · exact hcs'
  · have hbeyond := (List.prefix_append_right_inj ds).mp h
    cases beyond with
    | nil => exact (List.append_nil ds).symm ▸ List.prefix_rfl
    | cons c beyond =>
        rcases hbeyond with ⟨rest, rfl⟩
        have hblank := hafter c rfl
        rw [hcs c (List.mem_append_right ds List.mem_cons_self)] at hblank
        cases hblank

theorem isBlank_symbols : ∀ entry ∈ Token.symbols, ∀ c ∈ entry.1.toList,
    Text.isBlank c = false := by
  have hall : Token.symbols.all (fun entry => entry.1.toList.all (fun c => !Text.isBlank c)) =
      true := by
    decide +kernel
  intro entry hentry c hc
  have hc' := List.all_eq_true.mp (List.all_eq_true.mp hall entry hentry) c hc
  rwa [Bool.not_eq_true'] at hc'

section

variable {token : Token} {after : List Char}

theorem isLexeme_word {c : Char} {cs : List Char} (htext : token.render.toList = c :: cs)
    (htoken : Token.ofWord token.render = token) (hstart : isNameStart c = true)
    (hparts : cs.all isNameChar = true) (hafter : ∀ d ∈ after.head?, Text.isBlank d = true) :
    IsLexeme token token.render.toList after := by
  have hends : ∀ d ∈ after.head?, ¬ IsNamePart d := by
    intro d hd hpart
    have hblank := hafter d hd
    rw [isBlank_of_isNamePart hpart] at hblank
    cases hblank
  have hlexeme := IsLexeme.word (isNameStart_iff.mp hstart)
    (fun d hd => isNameChar_iff.mp (List.all_eq_true.mp hparts d hd)) hends
  rwa [← htext, String.ofList_toList, htoken] at hlexeme

theorem isLexeme_number {text : String} (htext : text ≠ "")
    (hdigits : ∀ c ∈ text.toList, c.isDigit = true)
    (hafter : ∀ d ∈ after.head?, Text.isBlank d = true) :
    IsLexeme (.digits text) text.toList after := by
  have hends : ∀ d ∈ after.head?, d.isDigit = false := by
    intro d hd
    rw [Bool.eq_false_iff]
    intro hdigit
    have hblank := hafter d hd
    rw [isBlank_of_isNamePart (isNamePart_of_isDigit hdigit)] at hblank
    cases hblank
  cases hcs : text.toList with
  | nil => exact absurd (String.toList_eq_nil_iff.mp hcs) htext
  | cons c cs =>
      have hlexeme := IsLexeme.number (hcs ▸ hdigits) hends
      rwa [← hcs, String.ofList_toList, hcs] at hlexeme

theorem isLexeme_symbol (hsymbol : (token.render, token) ∈ Token.symbols)
    (hafter : ∀ d ∈ after.head?, Text.isBlank d = true) :
    IsLexeme token token.render.toList after := by
  refine IsLexeme.symbol hsymbol fun other hother hprefix => ?_
  have hle := (prefix_of_prefix_append (isBlank_symbols other hother) hafter hprefix).length_le
  rwa [String.length_toList, String.length_toList] at hle

theorem isLexeme_render (h : token.IsWritable)
    (hafter : ∀ d ∈ after.head?, Text.isBlank d = true) :
    IsLexeme token token.render.toList after := by
  cases token with
  | name text =>
      rcases h.spelling with ⟨c, cs, htext, hstart, hparts⟩
      have hall : cs.all isNameChar = true :=
        List.all_eq_true.mpr fun d hd => isNameChar_iff.mpr (hparts d hd)
      exact isLexeme_word htext (ofWord_of_not_reserved h.not_reserved)
        (isNameStart_iff.mpr hstart) hall hafter
  | digits text => exact isLexeme_number h.1 h.2 hafter
  | constant value =>
      cases value with
      | true | false => exact isLexeme_word rfl rfl rfl rfl hafter
  | modality op =>
      cases op with
      | next | always | eventually => exact isLexeme_word rfl rfl rfl rfl hafter
  | temporal op =>
      cases op with
      | untl | release | weakUntil | strongRelease =>
          exact isLexeme_word rfl rfl rfl rfl hafter
  | openParen | closeParen | not | implies | iff => exact isLexeme_symbol (by decide) hafter
  | connective k =>
      cases k with
      | and | or => exact isLexeme_symbol (by decide) hafter
  | arithmetic op =>
      cases op with
      | add | sub | mul => exact isLexeme_symbol (by decide) hafter
  | comparison op =>
      cases op with
      | leq | lt | geq | gt => exact isLexeme_symbol (by decide) hafter

end

theorem exists_isLaidOut_spaced (offset : Nat) {leading : List Char}
    {entries : List (Token × String)} (hleading : ∀ c ∈ leading, Text.isBlank c = true)
    (hentries : ∀ entry ∈ entries, entry.1.IsWritable ∧ IsBlankText entry.2)
    (hgaps : ∀ entry ∈ entries.dropLast, entry.2 ≠ "") :
    ∃ tokens, IsLaidOut offset (leading ++ (spaced entries).toList) tokens ∧
      tokens.map Located.token = entries.map Prod.fst := by
  induction entries generalizing offset leading with
  | nil =>
      refine ⟨[], ?_, rfl⟩
      rw [spaced, String.toList_empty, List.append_nil]
      exact IsLaidOut.done hleading
  | cons entry entries ih =>
      rcases entry with ⟨token, gap⟩
      rcases List.forall_mem_cons.mp hentries with ⟨⟨htoken, hgap⟩, hentries⟩
      -- the blanks after a token are those before the next one
      have hgaps' : ∀ entry ∈ entries.dropLast, entry.2 ≠ "" := by
        intro entry hentry
        cases entries with
        | nil => cases hentry
        | cons next entries => exact hgaps entry (List.mem_cons_of_mem _ hentry)
      have hafter : ∀ c ∈ (gap.toList ++ (spaced entries).toList).head?,
          Text.isBlank c = true := by
        intro c hc
        cases hchars : gap.toList with
        | nil =>
            cases entries with
            | nil =>
                rw [hchars] at hc
                cases hc
            | cons next entries =>
                have hempty := String.toList_eq_nil_iff.mp hchars
                exact absurd hempty (hgaps _ List.mem_cons_self)
        | cons d ds =>
            rw [hchars] at hc
            cases hc
            exact hgap c (hchars ▸ List.mem_cons_self)
      rcases ih (offset + byteLength leading + byteLength token.render.toList) hgap
        hentries hgaps' with ⟨tokens, hlaidOut, htokens⟩
      refine ⟨⟨token, offset + byteLength leading⟩ :: tokens, ?_, ?_⟩
      · rw [spaced, String.toList_append, String.toList_append, List.append_assoc]
        exact IsLaidOut.token hleading (isLexeme_render htoken hafter) hlaidOut
      · rw [List.map_cons, List.map_cons, htokens]

/-!
## Scanning a text

What stands at the offset of a symbol is the longest symbol that can be read there.
-/

theorem exists_longest_of_mem_scan {offset : Nat} {cs : List Char} {tokens : List Located}
    {located : Located} (h : scan offset cs = .ok tokens) (hlocated : located ∈ tokens)
    (hsymbol : located.token ∈ Token.symbols.map Prod.snd) :
    ∃ before symbol after, cs = before ++ (symbol.toList ++ after) ∧
      located.offset = offset + byteLength before ∧ (symbol, located.token) ∈ Token.symbols ∧
      ∀ other ∈ Token.symbols, other.1.toList <+: symbol.toList ++ after →
        other.1.length ≤ symbol.length := by
  rcases exists_of_mem_scan h hlocated with ⟨before, text, after, hcs, hread, hoffset⟩
  rcases isLexeme_of_lexeme? hread with ⟨after', hafter, hlexeme⟩
  rw [List.append_cancel_left_eq] at hafter
  cases hafter
  rcases symbol_of_isLexeme hlexeme hsymbol with ⟨symbol, rfl, hmem, hlongest⟩
  exact ⟨before, symbol, after, hcs, hoffset, hmem, hlongest⟩

/-- Scanning loses nothing: a text has exactly the tokens that are laid out in it, with only blanks
around them, in the order of their offsets, and each symbol is the longest one that can be read
where it stands.  And blanks do not matter: however many come between tokens that are written out,
and before and after them, the same tokens are read. -/
theorem tokenize_lossless :
    (∀ (text : String) (tokens : List Located),
      (tokenize text = .ok tokens ↔ IsLaidOut 0 text.toList tokens) ∧
      (tokenize text = .ok tokens →
        tokens.Pairwise (fun a b => a.offset < b.offset) ∧
        ∀ located ∈ tokens, located.token ∈ Token.symbols.map Prod.snd →
          ∃ before symbol after, text.toList = before ++ (symbol.toList ++ after) ∧
            located.offset = byteLength before ∧ (symbol, located.token) ∈ Token.symbols ∧
            ∀ other ∈ Token.symbols, other.1.toList <+: symbol.toList ++ after →
              other.1.length ≤ symbol.length)) ∧
    (∀ (leading : String) (entries : List (Token × String)), IsBlankText leading →
      (∀ entry ∈ entries, entry.1.IsWritable ∧ IsBlankText entry.2) →
      (∀ entry ∈ entries.dropLast, entry.2 ≠ "") →
      ∃ tokens, tokenize (leading ++ spaced entries) = .ok tokens ∧
        tokens.map Located.token = entries.map Prod.fst) := by
  constructor
  · intro text tokens
    refine ⟨scan_eq_ok_iff, fun h => ⟨(isLaidOut_of_scan h).pairwise, ?_⟩⟩
    intro located hlocated hsymbol
    have hlongest := exists_longest_of_mem_scan h hlocated hsymbol
    simpa only [Nat.zero_add] using hlongest
  · intro leading entries hleading hentries hgaps
    rcases exists_isLaidOut_spaced 0 hleading hentries hgaps with
      ⟨tokens, hlaidOut, htokens⟩
    rw [← String.toList_append] at hlaidOut
    exact ⟨tokens, scan_of_isLaidOut hlaidOut, htokens⟩

theorem tokenize_lossless_arrow :
    let tokens : List Located := [⟨.name "a", 0⟩, ⟨.iff, 1⟩, ⟨.name "b", 4⟩]
    let entries : List (Token × String) :=
      [(.comparison .lt, "\u00a0"), (.arithmetic .sub, " \u2003"), (.comparison .gt, "")]
    (tokenize "a<->b" = .ok tokens ∧ IsLaidOut 0 "a<->b".toList tokens ∧
      tokens.Pairwise (fun a b => a.offset < b.offset)) ∧
    ∃ tokens, tokenize ("\t" ++ spaced entries) = .ok tokens ∧
      tokens.map Located.token = [.comparison .lt, .arithmetic .sub, .comparison .gt] := by
  intro tokens entries
  have htokens : tokenize "a<->b" = .ok tokens := by decide +kernel
  have hleading : IsBlankText "\t" := List.all_eq_true.mp (by decide)
  have hblank : ∀ entry ∈ entries, IsBlankText entry.2 := by
    have hall : (entries.all fun entry => entry.2.toList.all Text.isBlank) = true := by
      decide +kernel
    exact fun entry hentry => List.all_eq_true.mp (List.all_eq_true.mp hall entry hentry)
  have hwritable : ∀ entry ∈ entries, entry.1.IsWritable := by simp [entries, Token.IsWritable]
  rcases tokenize_lossless with ⟨hlossless, hspaced⟩
  exact ⟨⟨htokens, (hlossless _ _).1.mp htokens, ((hlossless _ _).2 htokens).1⟩,
    hspaced _ _ hleading (fun entry h => ⟨hwritable entry h, hblank entry h⟩) (by decide)⟩

end Surface
end LinearTemporal

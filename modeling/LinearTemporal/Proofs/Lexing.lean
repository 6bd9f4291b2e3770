import LinearTemporal.Surface.Lexer

/-!
# Texts and their tokens

How the tokens of a text come from those of its parts.  A part is written so that it means
the same tokens before whatever can follow it: a blank, a closing parenthesis or the end.
So texts can be put together from parts with blanks, prefixes and parentheses, and their
tokens with them.

In the other direction, every token stands at its offset in the text.  So a name among the
tokens of any text is an identifier that is no reserved word, and a number has only digits.
-/

namespace LinearTemporal
namespace Surface

/-!
## Identifiers

The reserved words are the keywords, so a word is a name or stands for a token of its
own.
-/

def IsNameStart (c : Char) : Prop :=
  ('A' ≤ c ∧ c ≤ 'Z') ∨ ('a' ≤ c ∧ c ≤ 'z') ∨ c = '_'

def IsNamePart (c : Char) : Prop :=
  IsNameStart c ∨ ('0' ≤ c ∧ c ≤ '9')

def reservedWords : List String :=
  ["true", "TRUE", "tt", "false", "FALSE", "ff", "X", "G", "F", "U", "R", "W", "M"]

/-- A letter or underscore, and then letters, digits and underscores; the words of the
language are excluded. -/
structure IsIdentifier (name : String) : Prop where
  spelling : ∃ c cs, name.toList = c :: cs ∧ IsNameStart c ∧ ∀ d ∈ cs, IsNamePart d
  not_reserved : name ∉ reservedWords

theorem isNameStart_iff {c : Char} : isNameStart c = true ↔ IsNameStart c := by
  unfold isNameStart IsNameStart Char.isAlpha Char.isUpper Char.isLower
  simp only [Bool.or_eq_true, Bool.and_eq_true, decide_eq_true_eq, beq_iff_eq, or_assoc]
  rfl

theorem isNameChar_iff {c : Char} : isNameChar c = true ↔ IsNamePart c := by
  unfold IsNamePart
  rw [← isNameStart_iff]
  unfold isNameChar isNameStart Char.isAlphanum Char.isDigit
  simp only [Bool.or_eq_true, Bool.and_eq_true, decide_eq_true_eq, beq_iff_eq]
  rw [or_right_comm]
  rfl

theorem isBlank_of_isNamePart {c : Char} (h : IsNamePart c) : Text.isBlank c = false := by
  have hcode : 48 ≤ c.toNat ∧ c.toNat ≤ 122 := by
    rcases h with (⟨hmin, hmax⟩ | ⟨hmin, hmax⟩ | rfl) | ⟨hmin, hmax⟩
    · exact ⟨Nat.le_trans (by decide) hmin, Nat.le_trans hmax (by decide)⟩
    · exact ⟨Nat.le_trans (by decide) hmin, hmax⟩
    · decide
    · exact ⟨hmin, Nat.le_trans hmax (by decide)⟩
  unfold Text.isBlank
  simp only [Bool.or_eq_false_iff, Bool.and_eq_false_iff, decide_eq_false_iff_not,
    beq_eq_false_iff_ne]
  omega

theorem isNamePart_of_isDigit {c : Char} (h : c.isDigit = true) : IsNamePart c := by
  unfold Char.isDigit at h
  rw [Bool.and_eq_true, decide_eq_true_eq, decide_eq_true_eq] at h
  exact Or.inr h

theorem isNameStart_of_isDigit {c : Char} (h : c.isDigit = true) : isNameStart c = false := by
  have hmax : c.toNat ≤ 57 := by
    unfold Char.isDigit at h
    rw [Bool.and_eq_true, decide_eq_true_eq, decide_eq_true_eq] at h
    exact h.2
  rw [Bool.eq_false_iff]
  intro hstart
  rcases isNameStart_iff.mp hstart with ⟨hmin, _⟩ | ⟨hmin, _⟩ | rfl
  · exact absurd (Nat.le_trans hmin hmax) (by decide)
  · exact absurd (Nat.le_trans hmin hmax) (by decide)
  · exact absurd hmax (by decide)

theorem ofWord_of_not_reserved {word : String} (h : word ∉ reservedWords) :
    Token.ofWord word = .name word := by
  have hlookup : Token.keywords.lookup word = none := by
    rw [List.lookup_eq_none_iff]
    intro entry hentry
    rw [bne_iff_ne]
    rintro rfl
    exact h (List.mem_map_of_mem (f := Prod.fst) hentry)
  unfold Token.ofWord
  rw [hlookup]
  rfl

theorem ofWord_cases (word : String) :
    (Token.ofWord word = .name word ∧ word ∉ reservedWords) ∨
      Token.ofWord word ∈ Token.keywords.map Prod.snd := by
  unfold Token.ofWord
  cases hlookup : Token.keywords.lookup word with
  | none =>
      refine Or.inl ⟨rfl, fun hreserved => ?_⟩
      rcases List.mem_map.mp (show word ∈ Token.keywords.map Prod.fst from hreserved) with
        ⟨entry, hentry, rfl⟩
      have hne := List.lookup_eq_none_iff.mp hlookup entry hentry
      rw [bne_self_eq_false] at hne
      cases hne
  | some token =>
      rcases List.lookup_eq_some_iff.mp hlookup with ⟨before, after, hkeywords, _⟩
      refine Or.inr ?_
      rw [hkeywords]
      simp

theorem not_reserved_of_ofWord {word name : String} (h : Token.ofWord word = .name name) :
    word = name ∧ word ∉ reservedWords := by
  rcases ofWord_cases word with ⟨hname, hreserved⟩ | hkeyword
  · rw [hname] at h
    cases h
    exact ⟨rfl, hreserved⟩
  · have hnames : ∀ keyword ∈ Token.keywords.map Prod.snd, ∀ name, keyword ≠ .name name := by
      simp [Token.keywords]
    exact absurd h (hnames _ hkeyword name)

theorem ofWord_ne_digits (word number : String) : Token.ofWord word ≠ .digits number := by
  rcases ofWord_cases word with ⟨hname, _⟩ | hkeyword
  · rw [hname]
    exact nofun
  · have hnumbers : ∀ keyword ∈ Token.keywords.map Prod.snd, ∀ number,
        keyword ≠ .digits number := by
      simp [Token.keywords]
    exact hnumbers _ hkeyword number

/-!
## Scanning step by step

What scanning does with the first of the remaining characters.
-/

section

variable {offset : Nat} {c : Char} {cs : List Char}

theorem scan_nil : scan offset [] = .ok [] := by
  rw [scan.eq_def]

theorem scan_blank (h : Text.isBlank c = true) :
    scan offset (c :: cs) = scan (offset + c.utf8Size) cs := by
  rw [scan.eq_def]
  exact if_pos h

theorem scan_unexpected (h : Text.isBlank c = false) (hlexeme : lexeme? (c :: cs) = none) :
    scan offset (c :: cs) = .error (.unexpectedChar c offset) := by
  rw [scan.eq_def]
  dsimp only
  rw [h, hlexeme]
  rfl

theorem scan_lexeme {token : Token} {text : List Char} (h : Text.isBlank c = false)
    (hlexeme : lexeme? (c :: cs) = some (token, text)) :
    scan offset (c :: cs) = (do
      let rest ← scan (offset + byteLength text) (cs.drop (text.length - 1))
      return ⟨token, offset⟩ :: rest) := by
  rw [scan.eq_def]
  dsimp only
  rw [h, hlexeme]
  rfl

end

/-!
## Where tokens stand

Every token is what the text starts with from its place on, and comes from a word, a
number or a symbol.  Where scanning fails it names the character and the place, and only
blanks have no tokens.
-/

theorem byteLength_append (cs ds : List Char) :
    byteLength (cs ++ ds) = byteLength cs + byteLength ds := by
  induction cs with
  | nil => exact (Nat.zero_add _).symm
  | cons c cs ih =>
      show c.utf8Size + byteLength (cs ++ ds) = c.utf8Size + byteLength cs + byteLength ds
      rw [ih, Nat.add_assoc]

theorem lexeme?_cases {cs text : List Char} {token : Token}
    (h : lexeme? cs = some (token, text)) :
    text ≠ [] ∧ text <+: cs ∧
      ((∃ c word, text = c :: word ∧ isNameStart c = true ∧ word.all isNameChar = true ∧
          token = Token.ofWord (String.ofList text)) ∨
        (text.all Char.isDigit = true ∧ token = .digits (String.ofList text)) ∨
        ∃ symbol, (symbol, token) ∈ Token.symbols ∧ text = symbol.toList) := by
  cases cs with
  | nil => cases h
  | cons c cs =>
      unfold lexeme? at h
      dsimp only at h
      split at h
      · rename_i hstart
        cases h
        refine ⟨nofun, List.cons_prefix_cons.mpr ⟨rfl, List.takeWhile_prefix _⟩, Or.inl ?_⟩
        exact ⟨c, _, rfl, hstart, List.all_takeWhile, rfl⟩
      · split at h
        · rename_i hdigit
          cases h
          refine ⟨nofun, List.cons_prefix_cons.mpr ⟨rfl, List.takeWhile_prefix _⟩,
            Or.inr (Or.inl ⟨?_, rfl⟩)⟩
          rw [List.all_cons, hdigit, List.all_takeWhile]
          rfl
        · rcases Option.map_eq_some_iff.mp h with ⟨⟨symbol, symbolToken⟩, hsymbol, heq⟩
          cases heq
          have hmem := List.mem_of_find?_eq_some hsymbol
          have hprefix := List.find?_some hsymbol
          have hsymbols : ∀ entry ∈ Token.symbols, entry.1.toList ≠ [] := by decide
          exact ⟨hsymbols _ hmem, List.isPrefixOf_iff_prefix.mp hprefix,
            Or.inr (Or.inr ⟨symbol, hmem, rfl⟩)⟩

theorem append_drop_of_lexeme {c : Char} {cs text : List Char} {token : Token}
    (h : lexeme? (c :: cs) = some (token, text)) :
    text ++ cs.drop (text.length - 1) = c :: cs := by
  rcases lexeme?_cases h with ⟨hne, ⟨after, hafter⟩, _⟩
  cases text with
  | nil => exact absurd rfl hne
  | cons d word =>
      rcases List.cons.inj hafter with ⟨rfl, rfl⟩
      exact congrArg (d :: word ++ ·) List.drop_left

theorem exists_of_mem_scan {offset : Nat} {cs : List Char} {tokens : List Located}
    {located : Located} (h : scan offset cs = .ok tokens) (hlocated : located ∈ tokens) :
    ∃ before text after, cs = before ++ (text ++ after) ∧
      lexeme? (text ++ after) = some (located.token, text) ∧
      located.offset = offset + byteLength before := by
  induction offset, cs using scan.induct generalizing tokens with
  | case1 offset =>
      rw [scan_nil] at h
      cases h
      cases hlocated
  | case2 offset c cs hblank ih =>
      rw [scan_blank hblank] at h
      rcases ih h hlocated with ⟨before, text, after, rfl, hlexeme, hoffset⟩
      exact ⟨c :: before, text, after, rfl, hlexeme, hoffset.trans (Nat.add_assoc ..)⟩
  | case3 offset c cs hblank hlexeme =>
      rw [scan_unexpected (Bool.eq_false_iff.mpr hblank) hlexeme] at h
      cases h
  | case4 offset c cs hblank token text hlexeme ih =>
      rw [scan_lexeme (Bool.eq_false_iff.mpr hblank) hlexeme] at h
      cases hrest : scan (offset + byteLength text) (cs.drop (text.length - 1)) with
      | error e =>
          rw [hrest] at h
          cases h
      | ok rest =>
          rw [hrest] at h
          cases h
          have hsplit := append_drop_of_lexeme hlexeme
          rcases List.mem_cons.mp hlocated with rfl | hlater
          · rw [← hsplit] at hlexeme ⊢
            exact ⟨[], text, _, rfl, hlexeme, rfl⟩
          · rcases ih hrest hlater with ⟨before, text', after, hcs, hlexeme', hoffset⟩
            refine ⟨text ++ before, text', after, ?_, hlexeme', ?_⟩
            · rw [← hsplit, hcs, List.append_assoc]
            · rw [hoffset, byteLength_append, Nat.add_assoc]

theorem exists_of_scan_error {offset : Nat} {cs : List Char} {e : ParseError}
    (h : scan offset cs = .error e) :
    ∃ before c after, cs = before ++ c :: after ∧ Text.isBlank c = false ∧
      e = .unexpectedChar c (offset + byteLength before) := by
  induction offset, cs using scan.induct with
  | case1 offset =>
      rw [scan_nil] at h
      cases h
  | case2 offset c cs hblank ih =>
      rw [scan_blank hblank] at h
      rcases ih h with ⟨before, d, after, rfl, hd, rfl⟩
      exact ⟨c :: before, d, after, rfl, hd, congrArg _ (Nat.add_assoc ..)⟩
  | case3 offset c cs hblank hlexeme =>
      rw [scan_unexpected (Bool.eq_false_iff.mpr hblank) hlexeme] at h
      cases h
      exact ⟨[], c, cs, rfl, Bool.eq_false_iff.mpr hblank, rfl⟩
  | case4 offset c cs hblank token text hlexeme ih =>
      rw [scan_lexeme (Bool.eq_false_iff.mpr hblank) hlexeme] at h
      cases hrest : scan (offset + byteLength text) (cs.drop (text.length - 1)) with
      | ok rest =>
          rw [hrest] at h
          cases h
      | error raised =>
          rw [hrest] at h
          cases h
          rcases ih hrest with ⟨before, d, after, hcs, hd, rfl⟩
          refine ⟨text ++ before, d, after, ?_, hd, ?_⟩
          · rw [← append_drop_of_lexeme hlexeme, hcs, List.append_assoc]
          · rw [byteLength_append, Nat.add_assoc]

theorem scan_eq_nil_iff {offset : Nat} {cs : List Char} :
    scan offset cs = .ok [] ↔ ∀ c ∈ cs, Text.isBlank c = true := by
  induction offset, cs using scan.induct with
  | case1 offset =>
      rw [scan_nil]
      exact ⟨fun _ => nofun, fun _ => rfl⟩
  | case2 offset c cs hblank ih =>
      rw [scan_blank hblank, ih, List.forall_mem_cons]
      exact (and_iff_right hblank).symm
  | case3 offset c cs hblank hlexeme =>
      rw [scan_unexpected (Bool.eq_false_iff.mpr hblank) hlexeme]
      exact ⟨nofun, fun hall => absurd (hall c List.mem_cons_self) hblank⟩
  | case4 offset c cs hblank token text hlexeme ih =>
      rw [scan_lexeme (Bool.eq_false_iff.mpr hblank) hlexeme]
      refine ⟨fun h => ?_, fun hall => absurd (hall c List.mem_cons_self) hblank⟩
      cases hrest : scan (offset + byteLength text) (cs.drop (text.length - 1)) with
      | error e =>
          rw [hrest] at h
          cases h
      | ok rest =>
          rw [hrest] at h
          cases h

/-!
## Names and numbers of a text

They are made of characters of the right kind, since a word or a number is all that is
taken of it.
-/

theorem isIdentifier_of_lexeme {cs text : List Char} {name : String}
    (h : lexeme? cs = some (.name name, text)) : IsIdentifier name := by
  rcases lexeme?_cases h with ⟨_, _, ⟨c, word, rfl, hstart, hword, htoken⟩ | ⟨_, htoken⟩ |
    ⟨symbol, hsymbol, _⟩⟩
  · rcases not_reserved_of_ofWord htoken.symm with ⟨rfl, hreserved⟩
    refine ⟨⟨c, word, String.toList_ofList, isNameStart_iff.mp hstart, ?_⟩, hreserved⟩
    intro d hd
    exact isNameChar_iff.mp (List.all_eq_true.mp hword d hd)
  · cases htoken
  · have hnames : ∀ token ∈ Token.symbols.map Prod.snd, ∀ name, token ≠ .name name := by
      simp [Token.symbols]
    exact absurd rfl (hnames _ (List.mem_map_of_mem hsymbol) name)

theorem isDigit_of_lexeme {cs text : List Char} {number : String}
    (h : lexeme? cs = some (.digits number, text)) :
    number.toList ≠ [] ∧ number.toList.all Char.isDigit = true := by
  rcases lexeme?_cases h with ⟨hne, _, ⟨c, word, _, _, _, htoken⟩ | ⟨hdigits, htoken⟩ |
    ⟨symbol, hsymbol, _⟩⟩
  · exact absurd htoken.symm (ofWord_ne_digits _ number)
  · cases htoken
    rw [String.toList_ofList]
    exact ⟨hne, hdigits⟩
  · have hnumbers : ∀ token ∈ Token.symbols.map Prod.snd, ∀ number, token ≠ .digits number := by
      simp [Token.symbols]
    exact absurd rfl (hnumbers _ (List.mem_map_of_mem hsymbol) number)

theorem isIdentifier_of_scan {offset : Nat} {cs : List Char} {tokens : List Located}
    {name : String} (h : scan offset cs = .ok tokens)
    (hname : .name name ∈ tokens.map Located.token) : IsIdentifier name := by
  rcases List.mem_map.mp hname with ⟨located, hlocated, htoken⟩
  rcases exists_of_mem_scan h hlocated with ⟨_, _, _, _, hlexeme, _⟩
  rw [htoken] at hlexeme
  exact isIdentifier_of_lexeme hlexeme

/-!
## Tokens of a text

Characters of one kind are taken up to what closes the operand.  A minus is one unless
what follows makes an arrow of it.
-/

/-- The text has the given tokens, wherever it starts. -/
def Scans (cs : List Char) (ts : List Token) : Prop :=
  ∀ offset, ∃ tokens, scan offset cs = .ok tokens ∧ tokens.map Located.token = ts

theorem Scans.nil : Scans [] [] := by
  intro offset
  exact ⟨[], scan_nil, rfl⟩

theorem Scans.blank {c : Char} {cs : List Char} {ts : List Token} (hblank : Text.isBlank c = true)
    (h : Scans cs ts) : Scans (c :: cs) ts := by
  intro offset
  rw [scan_blank hblank]
  exact h _

theorem Scans.lexeme {c : Char} {cs rest : List Char} {token : Token} {ts : List Token}
    (hblank : Text.isBlank c = false) (htoken : lexeme? (c :: cs ++ rest) = some (token, c :: cs))
    (h : Scans rest ts) : Scans (c :: cs ++ rest) (token :: ts) := by
  intro offset
  rcases h (offset + byteLength (c :: cs)) with ⟨tokens, hscan, htokens⟩
  have hdrop : (cs ++ rest).drop ((c :: cs).length - 1) = rest := by simp
  rw [List.cons_append] at htoken ⊢
  rw [scan_lexeme hblank htoken, hdrop, hscan]
  refine ⟨⟨token, offset⟩ :: tokens, rfl, ?_⟩
  rw [List.map_cons, htokens]

theorem Scans.character {c : Char} {rest : List Char} {token : Token} {ts : List Token}
    (hblank : Text.isBlank c = false) (htoken : lexeme? (c :: rest) = some (token, [c]))
    (h : Scans rest ts) : Scans (c :: rest) (token :: ts) :=
  @Scans.lexeme c [] rest token ts hblank htoken h

/-- What may follow an operand: a blank, a closing parenthesis or the end. -/
def Closes (rest : List Char) : Prop :=
  ∀ c ∈ rest.head?, c = ' ' ∨ c = ')'

/-- The text means these tokens before anything that may follow an operand. -/
def Spells (text : String) (ts : List Token) : Prop :=
  ∀ ⦃rest us⦄, Closes rest → Scans rest us → Scans (text.toList ++ rest) (ts ++ us)

def IsSymbol (symbol : String) (token : Token) : Prop :=
  ∀ ⦃rest us⦄, Scans rest us → Scans (symbol.toList ++ ' ' :: rest) (token :: us)

theorem Closes.takeWhile_eq_nil {rest : List Char} {p : Char → Bool} (h : Closes rest)
    (hblank : p ' ' = false) (hparen : p ')' = false) : rest.takeWhile p = [] := by
  cases rest with
  | nil => rfl
  | cons c cs =>
      rcases h c rfl with rfl | rfl
      · exact List.takeWhile_cons_of_neg (by simp [hblank])
      · exact List.takeWhile_cons_of_neg (by simp [hparen])

theorem Closes.takeWhile_append {cs rest : List Char} {p : Char → Bool} (h : Closes rest)
    (hcs : cs.all p = true) (hblank : p ' ' = false) (hparen : p ')' = false) :
    (cs ++ rest).takeWhile p = cs := by
  rw [List.takeWhile_append_of_pos (List.all_eq_true.mp hcs), h.takeWhile_eq_nil hblank hparen,
    List.append_nil]

namespace Spells

variable {text left right : String} {ts us : List Token} {token : Token}

theorem scans (h : Spells text ts) : Scans text.toList ts := by
  have hscans : Scans (text.toList ++ []) (ts ++ []) := h nofun Scans.nil
  rwa [List.append_nil, List.append_nil] at hscans

theorem word {word : String} {c : Char} {cs : List Char} (hword : word.toList = c :: cs)
    (hstart : isNameStart c = true) (hchars : cs.all isNameChar = true) :
    Spells word [Token.ofWord word] := by
  intro rest us hrest hus
  rw [hword]
  apply Scans.lexeme (isBlank_of_isNamePart (Or.inl (isNameStart_iff.mp hstart))) _ hus
  unfold lexeme?
  rw [List.cons_append]
  dsimp only
  rw [if_pos hstart, hrest.takeWhile_append hchars rfl rfl, ← hword, String.ofList_toList]

theorem identifier {name : String} (h : IsIdentifier name) : Spells name [.name name] := by
  rcases h.spelling with ⟨c, cs, hname, hstart, hparts⟩
  have hchars : cs.all isNameChar = true :=
    List.all_eq_true.mpr fun d hd => isNameChar_iff.mpr (hparts d hd)
  have hword := word hname (isNameStart_iff.mpr hstart) hchars
  rwa [ofWord_of_not_reserved h.not_reserved] at hword

theorem digits {number : String} {c : Char} {cs : List Char} (hnumber : number.toList = c :: cs)
    (hc : c.isDigit = true) (hcs : cs.all Char.isDigit = true) :
    Spells number [.digits number] := by
  intro rest us hrest hus
  rw [hnumber]
  apply Scans.lexeme (isBlank_of_isNamePart (isNamePart_of_isDigit hc)) _ hus
  unfold lexeme?
  rw [List.cons_append]
  dsimp only
  rw [if_neg (by simp [isNameStart_of_isDigit hc]), if_pos hc,
    hrest.takeWhile_append hcs rfl rfl, ← hnumber, String.ofList_toList]

theorem parenthesized (h : Spells text ts) :
    Spells ("(" ++ text ++ ")") (.openParen :: (ts ++ [.closeParen])) := by
  intro rest us _ hus
  have hclose : Scans (')' :: rest) (.closeParen :: us) := Scans.character rfl rfl hus
  have hcloses : Closes (')' :: rest) := by simp [Closes]
  have hall : Scans ('(' :: (text.toList ++ ')' :: rest))
      (.openParen :: (ts ++ .closeParen :: us)) :=
    Scans.character rfl rfl (h hcloses hclose)
  simpa using hall

theorem negation (h : Spells text ts) : Spells ("!" ++ text) (.not :: ts) := by
  intro rest us hrest hus
  have hall : Scans ('!' :: (text.toList ++ rest)) (.not :: (ts ++ us)) :=
    Scans.character rfl rfl (h hrest hus)
  simpa using hall

theorem minus {c : Char} {cs : List Char} (h : Spells text ts) (htext : text.toList = c :: cs)
    (hc : c ≠ '>') : Spells ("-" ++ text) (.arithmetic .sub :: ts) := by
  intro rest us hrest hus
  have hrest := h hrest hus
  rw [htext] at hrest
  have hlexeme : lexeme? ('-' :: (c :: cs ++ rest)) = some (.arithmetic .sub, ['-']) := by
    have harrow : ('>' == c) = false := beq_eq_false_iff_ne.mpr hc.symm
    show Option.map _ (Token.symbols.find? _) = _
    simp [Token.symbols, List.find?, List.isPrefixOf, harrow]
  have hall : Scans ('-' :: (c :: cs ++ rest)) (.arithmetic .sub :: (ts ++ us)) :=
    Scans.character rfl hlexeme hrest
  simpa [htext] using hall

theorem prefixed {symbol : String} (hsymbol : IsSymbol symbol token) (h : Spells text ts) :
    Spells (symbol ++ " " ++ text) (token :: ts) := by
  intro rest us hrest hus
  simpa using hsymbol (h hrest hus)

theorem infixed (hleft : Spells left ts) {symbol : String} (hsymbol : IsSymbol symbol token)
    (hright : Spells right us) :
    Spells (left ++ " " ++ symbol ++ " " ++ right) (ts ++ token :: us) := by
  intro rest vs hrest hvs
  have htail : Scans (symbol.toList ++ ' ' :: (right.toList ++ rest)) (token :: (us ++ vs)) :=
    hsymbol (hright hrest hvs)
  have hcloses : Closes (' ' :: (symbol.toList ++ ' ' :: (right.toList ++ rest))) := by
    simp [Closes]
  have hall := hleft hcloses (Scans.blank rfl htail)
  simpa using hall

end Spells

/-!
## Symbols

Each symbol that is written with a blank after it means its token.
-/

theorem isSymbol_of_lexeme {symbol : String} {token : Token} {c : Char} {cs : List Char}
    (hsymbol : symbol.toList = c :: cs) (hblank : Text.isBlank c = false)
    (h : ∀ rest, lexeme? (c :: cs ++ ' ' :: rest) = some (token, c :: cs)) :
    IsSymbol symbol token := by
  intro rest us hus
  rw [hsymbol]
  exact Scans.lexeme hblank (h rest) (Scans.blank rfl hus)

theorem isSymbol_arithmetic (op : Arithmetic) : IsSymbol op.symbol (.arithmetic op) := by
  cases op with
  | add | sub | mul => exact isSymbol_of_lexeme rfl rfl fun _ => rfl

theorem isSymbol_comparison (op : Comparison) : IsSymbol op.symbol (.comparison op) := by
  cases op with
  | leq | lt | geq | gt => exact isSymbol_of_lexeme rfl rfl fun _ => rfl

theorem isSymbol_connective (k : Connective) : IsSymbol k.symbol (.connective k) := by
  cases k with
  | and | or => exact isSymbol_of_lexeme rfl rfl fun _ => rfl

theorem isSymbol_modality (op : Modality) : IsSymbol op.symbol (.modality op) := by
  cases op with
  | next | always | eventually => exact isSymbol_of_lexeme rfl rfl fun _ => rfl

theorem isSymbol_temporal (op : TemporalOperator) :
    IsSymbol op.symbol (.temporal op) := by
  cases op with
  | untl | release | weakUntil | strongRelease => exact isSymbol_of_lexeme rfl rfl fun _ => rfl

end Surface
end LinearTemporal

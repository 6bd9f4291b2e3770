import LinearTemporal.Json.Printer

/-!
# The grammar of JSON

What a text has to look like to be one document: a value with its brackets, commas, colons and
quotes where they belong, and space between its parts and nowhere else.  Strings stand for what
their escapes mean, integers for their value; other numbers are kept as they are written.  Every
document is printed as a text of this kind, if the numbers that it keeps as text are numbers.
-/

namespace LinearTemporal
namespace Json

/-!
## Space and numbers

A number is written without zeros before its digits; its fraction and its exponent may
be left out.
-/

def IsSpaces (cs : List Char) : Prop :=
  ∀ c ∈ cs, c = ' ' ∨ c = '\t' ∨ c = '\n' ∨ c = '\r'

def IsDigits (cs : List Char) : Prop :=
  cs ≠ [] ∧ ∀ c ∈ cs, c.isDigit = true

structure IsWhole (cs : List Char) : Prop where
  digits : IsDigits cs
  leading : cs.head? = some '0' → cs = ['0']

inductive IsInteger : Int → List Char → Prop where
  | natural {cs : List Char} : IsWhole cs → IsInteger (Nat.ofDigitChars 10 cs 0) cs
  | negative {cs : List Char} :
      IsWhole cs → IsInteger (-(Nat.ofDigitChars 10 cs 0 : Int)) ('-' :: cs)

inductive IsFraction : List Char → Prop where
  | none : IsFraction []
  | digits {cs : List Char} : IsDigits cs → IsFraction ('.' :: cs)

inductive IsExponent : List Char → Prop where
  | none : IsExponent []
  | unsigned {mark : Char} {cs : List Char} :
      mark = 'e' ∨ mark = 'E' → IsDigits cs → IsExponent (mark :: cs)
  | signed {mark sign : Char} {cs : List Char} :
      mark = 'e' ∨ mark = 'E' → sign = '+' ∨ sign = '-' → IsDigits cs →
      IsExponent (mark :: sign :: cs)

inductive IsUnsigned : List Char → Prop where
  | parts {whole fraction exponent : List Char} :
      IsWhole whole → IsFraction fraction → IsExponent exponent →
      IsUnsigned (whole ++ (fraction ++ exponent))

inductive IsNumber : List Char → Prop where
  | unsigned {cs : List Char} : IsUnsigned cs → IsNumber cs
  | negative {cs : List Char} : IsUnsigned cs → IsNumber ('-' :: cs)

/-!
## Strings

Some characters have an escape of one letter, and those whose number has four
hexadecimal digits have one that names it.
-/

def shortEscapes : List (Char × Char) :=
  [('"', '"'), ('\\', '\\'), ('/', '/'), ('b', '\x08'), ('f', '\x0c'), ('n', '\n'), ('r', '\r'),
    ('t', '\t')]

def hexValue? (c : Char) : Option Nat :=
  if '0' ≤ c ∧ c ≤ '9' then some (c.toNat - 48)
  else if 'a' ≤ c ∧ c ≤ 'f' then some (c.toNat - 87)
  else if 'A' ≤ c ∧ c ≤ 'F' then some (c.toNat - 55)
  else none

def hexNumber? (cs : List Char) : Option Nat :=
  cs.foldlM (fun n c => (hexValue? c).map (16 * n + ·)) 0

/-- What is written between quotes, and the characters that it means. -/
inductive Escapes : List Char → List Char → Prop where
  | nil : Escapes [] []
  | plain {c : Char} {cs text : List Char} :
      c ≠ '"' → c ≠ '\\' → 32 ≤ c.toNat → Escapes cs text → Escapes (c :: cs) (c :: text)
  | short {letter c : Char} {cs text : List Char} :
      (letter, c) ∈ shortEscapes → Escapes cs text → Escapes ('\\' :: letter :: cs) (c :: text)
  | code {digits : List Char} {c : Char} {cs text : List Char} :
      digits.length = 4 → hexNumber? digits = some c.toNat → Escapes cs text →
      Escapes ('\\' :: 'u' :: (digits ++ cs)) (c :: text)

def Quotes (text : String) (cs : List Char) : Prop :=
  ∃ body, Escapes body text.toList ∧ cs = '"' :: (body ++ ['"'])

/-!
## Documents

A text is a document in any of the ways in which it may be written, with space around
each part.
-/

/-- Parts with commas between them, and space around each part. -/
inductive Separated {α : Type} (R : α → List Char → Prop) : List α → List Char → Prop where
  | none {spaces : List Char} : IsSpaces spaces → Separated R [] spaces
  | last {x : α} {before cs after : List Char} :
      IsSpaces before → R x cs → IsSpaces after → Separated R [x] (before ++ (cs ++ after))
  | more {x y : α} {xs : List α} {before cs after rest : List Char} :
      IsSpaces before → R x cs → IsSpaces after → Separated R (y :: xs) rest →
      Separated R (x :: y :: xs) (before ++ (cs ++ (after ++ ',' :: rest)))

mutual

/-- The text is the document, written in one of the ways that it may be written. -/
inductive Writes : Json → List Char → Prop where
  | null : Writes .null "null".toList
  | true : Writes (.bool true) "true".toList
  | false : Writes (.bool false) "false".toList
  | integer {value : Int} {cs : List Char} : IsInteger value cs → Writes (.integer value) cs
  | decimal {text : String} : IsNumber text.toList → Writes (.decimal text) text.toList
  | string {text : String} {cs : List Char} : Quotes text cs → Writes (.string text) cs
  | array {items : List Json} {cs : List Char} :
      Separated Writes items cs → Writes (.array items) ('[' :: (cs ++ [']']))
  | object {members : List (String × Json)} {cs : List Char} :
      Separated WritesMember members cs → Writes (.object members) ('\x7b' :: (cs ++ ['\x7d']))

inductive WritesMember : String × Json → List Char → Prop where
  | member {key : String} {value : Json} {quoted before after cs : List Char} :
      Quotes key quoted → IsSpaces before → IsSpaces after → Writes value cs →
      WritesMember (key, value) (quoted ++ (before ++ ':' :: (after ++ cs)))

end

mutual

/-- The numbers that the document keeps as text are numbers. -/
def HasNumbers : Json → Prop
  | decimal text => IsNumber text.toList
  | array items => HaveNumbers items
  | object members => HaveNumbersIn members
  | _ => True

def HaveNumbers : List Json → Prop
  | [] => True
  | item :: items => item.HasNumbers ∧ HaveNumbers items

def HaveNumbersIn : List (String × Json) → Prop
  | [] => True
  | (_, value) :: members => value.HasNumbers ∧ HaveNumbersIn members

end

/-!
## How documents start

They start with a digit, or what numbers below zero, words, quotes and brackets start
with, and so with no space.
-/

def IsStart (c : Char) : Prop :=
  c.isDigit = true ∨ c ∈ ['-', 'n', 't', 'f', '"', '[', '\x7b']

theorem IsWhole.exists_cons {cs : List Char} (h : IsWhole cs) :
    ∃ c rest, cs = c :: rest ∧ IsStart c := by
  rcases List.exists_cons_of_ne_nil h.digits.1 with ⟨c, rest, rfl⟩
  exact ⟨c, rest, rfl, Or.inl (h.digits.2 c List.mem_cons_self)⟩

theorem IsUnsigned.exists_cons {cs : List Char} (h : IsUnsigned cs) :
    ∃ c rest, cs = c :: rest ∧ IsStart c := by
  cases h with
  | parts hwhole _ _ =>
      rcases hwhole.exists_cons with ⟨c, rest, rfl, hc⟩
      exact ⟨c, _, rfl, hc⟩

theorem Writes.exists_cons {document : Json} {cs : List Char} (h : Writes document cs) :
    ∃ c rest, cs = c :: rest ∧ IsStart c := by
  have hstart {c : Char} {rest : List Char} (hc : c ∈ ['-', 'n', 't', 'f', '"', '[', '\x7b']) :
      ∃ d others, c :: rest = d :: others ∧ IsStart d := ⟨c, rest, rfl, Or.inr hc⟩
  cases h with
  | null => exact hstart (by decide)
  | true => exact hstart (by decide)
  | false => exact hstart (by decide)
  | integer hinteger =>
      cases hinteger with
      | natural hwhole => exact hwhole.exists_cons
      | negative _ => exact hstart (by decide)
  | decimal hnumber =>
      generalize String.toList _ = cs at hnumber ⊢
      cases hnumber with
      | unsigned hunsigned => exact hunsigned.exists_cons
      | negative _ => exact hstart (by decide)
  | string hquotes =>
      rcases hquotes with ⟨body, _, rfl⟩
      exact hstart (by decide)
  | array _ => exact hstart (by decide)
  | object _ => exact hstart (by decide)

/-!
## Printing strings and integers

The digits of a positive number start with no zero.
-/

theorem escapes_escapeChar {c : Char} {cs text : List Char} (h : Escapes cs text) :
    Escapes (escapeChar c ++ cs) (c :: text) := by
  have hshort {letter d : Char} (hmem : (letter, d) ∈ shortEscapes) :
      Escapes (['\\', letter] ++ cs) (d :: text) := Escapes.short hmem h
  unfold escapeChar
  split
  · exact hshort (by decide)
  · exact hshort (by decide)
  · exact hshort (by decide)
  · exact hshort (by decide)
  · exact hshort (by decide)
  · rename_i hquote hbackslash _ _ _
    split
    · rename_i hcode
      have hc : c = '\x08' := Char.toNat_inj.mp hcode
      exact hshort (by rw [hc]; decide)
    · split
      · rename_i hcode
        have hc : c = '\x0c' := Char.toNat_inj.mp hcode
        exact hshort (by rw [hc]; decide)
      · split
        · rename_i hsmall
          have hcodes : ∀ n, n < 32 →
              hexNumber? ['0', '0', hexDigit (n / 16), hexDigit (n % 16)] = some n := by
            decide +kernel
          exact Escapes.code rfl (hcodes _ hsmall) h
        · rename_i hplain
          exact Escapes.plain hquote hbackslash (Nat.le_of_not_lt hplain) h

theorem quotes_quote (text : String) : Quotes text (quote text).toList := by
  refine ⟨text.toList.flatMap escapeChar, ?_, String.toList_ofList⟩
  induction text.toList with
  | nil => exact Escapes.nil
  | cons c cs ih =>
      rw [List.flatMap_cons]
      exact escapes_escapeChar ih

theorem isDigits_toDigits (n : Nat) : IsDigits (Nat.toDigits 10 n) :=
  ⟨Nat.toDigits_ne_nil, fun _ hc => Nat.isDigit_of_mem_toDigits (by decide) (by decide) hc⟩

theorem head?_toDigits {n : Nat} (hn : 0 < n) : (Nat.toDigits 10 n).head? ≠ some '0' := by
  induction n using Nat.strongRecOn with
  | ind n ih =>
      by_cases hlt : n < 10
      · rw [Nat.toDigits_of_lt_base hlt, List.head?_singleton]
        have hdigits : ∀ m, m < 10 → 0 < m → some m.digitChar ≠ some '0' := by decide
        exact hdigits n hlt hn
      · have hle : 10 ≤ n := Nat.le_of_not_lt hlt
        have hhigh := ih (n / 10) (Nat.div_lt_self hn (by decide)) (Nat.div_pos hle (by decide))
        rw [Nat.toDigits_of_base_le (by decide) hle]
        cases hdigits : Nat.toDigits 10 (n / 10) with
        | nil => exact absurd hdigits Nat.toDigits_ne_nil
        | cons c cs =>
            rw [hdigits] at hhigh
            exact hhigh

theorem isWhole_toDigits (n : Nat) : IsWhole (Nat.toDigits 10 n) where
  digits := isDigits_toDigits n
  leading := fun hzero => by
    cases n with
    | zero => rfl
    | succ n => exact absurd hzero (head?_toDigits (Nat.succ_pos n))

theorem isInteger_toString (value : Int) : IsInteger value (toString value).toList := by
  rw [Int.toString_eq_repr, Int.repr_eq_if]
  split
  · rename_i hnonneg
    have hinteger := IsInteger.natural (isWhole_toDigits value.toNat)
    rwa [Nat.ofDigitChars_ten_toDigits, Int.toNat_of_nonneg hnonneg, ← Nat.toList_repr]
      at hinteger
  · rename_i hneg
    have hpos : 0 ≤ -value := Int.neg_nonneg_of_nonpos (Int.le_of_lt (Int.not_le.mp hneg))
    have hinteger := IsInteger.negative (isWhole_toDigits (-value).toNat)
    rw [Nat.ofDigitChars_ten_toDigits, Int.toNat_of_nonneg hpos, Int.neg_neg,
      ← Nat.toList_repr] at hinteger
    rw [String.toList_append]
    exact hinteger

/-!
## Printing documents

One part a line is a way to write parts with commas between them.
-/

theorem isSpaces_nil : IsSpaces [] :=
  nofun

theorem isSpaces_indentation (depth : Nat) : IsSpaces (indentation depth).toList := by
  intro c hc
  rw [indentation, String.toList_ofList] at hc
  exact Or.inl (List.eq_of_mem_replicate hc)

theorem isSpaces_line (depth : Nat) : IsSpaces ('\n' :: (indentation depth).toList) :=
  List.forall_mem_cons.mpr ⟨Or.inr (Or.inr (Or.inl rfl)), isSpaces_indentation depth⟩

section

variable {α : Type} {R : α → List Char → Prop} {print : α → String}

theorem separated_lines (depth : Nat) {x : α} {xs : List α}
    (h : ∀ y ∈ x :: xs, R y (print y).toList) :
    Separated R (x :: xs)
      ('\n' :: ((String.intercalate ",\n" (((x :: xs).map print).map
          (fun line => indentation (depth + 1) ++ line))).toList ++
        '\n' :: (indentation depth).toList)) := by
  induction xs generalizing x with
  | nil =>
      have hpart := Separated.last (isSpaces_line (depth + 1)) (h x List.mem_cons_self)
        (isSpaces_line depth)
      simpa using hpart
  | cons y ys ih =>
      rcases List.forall_mem_cons.mp h with ⟨hx, hrest⟩
      have hparts := Separated.more (isSpaces_line (depth + 1)) hx isSpaces_nil (ih hrest)
      simpa using hparts

theorem exists_enclose (depth : Nat) (opening closing : String) {xs : List α}
    (h : ∀ x ∈ xs, R x (print x).toList) :
    ∃ body, (enclose depth opening closing (xs.map print)).toList =
        opening.toList ++ (body ++ closing.toList) ∧ Separated R xs body := by
  cases xs with
  | nil => exact ⟨[], String.toList_append, Separated.none isSpaces_nil⟩
  | cons x xs =>
      refine ⟨_, ?_, separated_lines depth h⟩
      unfold enclose
      rw [if_neg (by simp)]
      simp

end

theorem renderItems_eq_map (depth : Nat) (items : List Json) :
    renderItems depth items = items.map (renderAt depth) := by
  induction items with
  | nil => rfl
  | cons item items ih => rw [renderItems, ih, List.map_cons]

theorem renderMembers_eq_map (depth : Nat) (members : List (String × Json)) :
    renderMembers depth members =
      members.map (fun member => quote member.1 ++ ": " ++ renderAt depth member.2) := by
  induction members with
  | nil => rfl
  | cons member members ih => rw [renderMembers, ih, List.map_cons]

mutual

theorem writes_renderAt (depth : Nat) :
    (document : Json) → document.HasNumbers → Writes document (document.renderAt depth).toList
  | null, _ => Writes.null
  | bool true, _ => Writes.true
  | bool false, _ => Writes.false
  | integer value, _ => Writes.integer (isInteger_toString value)
  | decimal _, h => Writes.decimal h
  | string text, _ => Writes.string (quotes_quote text)
  | array items, h => by
      rcases exists_enclose depth "[" "]" (writes_items (depth + 1) items h) with
        ⟨body, htext, hbody⟩
      rw [renderAt, renderItems_eq_map, htext]
      exact Writes.array hbody
  | object members, h => by
      rcases exists_enclose depth "\x7b" "\x7d" (writes_members (depth + 1) members h) with
        ⟨body, htext, hbody⟩
      rw [renderAt, renderMembers_eq_map, htext]
      exact Writes.object hbody

theorem writes_items (depth : Nat) :
    (items : List Json) → HaveNumbers items →
      ∀ item ∈ items, Writes item (item.renderAt depth).toList
  | [], _ => nofun
  | item :: items, h =>
      List.forall_mem_cons.mpr ⟨writes_renderAt depth item h.1, writes_items depth items h.2⟩

theorem writes_members (depth : Nat) :
    (members : List (String × Json)) → HaveNumbersIn members →
      ∀ member ∈ members, WritesMember member
        (quote member.1 ++ ": " ++ member.2.renderAt depth).toList
  | [], _ => nofun
  | (key, value) :: members, h => by
      refine List.forall_mem_cons.mpr ⟨?_, writes_members depth members h.2⟩
      have hspace : IsSpaces [' '] := List.forall_mem_singleton.mpr (Or.inl rfl)
      have hmember := WritesMember.member (quotes_quote key) isSpaces_nil hspace
        (writes_renderAt depth value h.1)
      simpa using hmember

end

end Json
end LinearTemporal

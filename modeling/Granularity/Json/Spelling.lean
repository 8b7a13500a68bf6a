/-!
JSON values, and the spelling of text in them.

A value keeps the spelling of its strings and numbers as the document has them: a string is what
stands between its quotes, escapes included, and a number is its literal.  Reading a document
settles its syntax alone; what a spelling means, and whether it means anything, is asked only of
the parts that are used.

Written text escapes the quote, the backslash and the control characters and nothing else.  Reading
takes every escape of the standard; two escapes for the halves of a surrogate pair spell one
character, and half a pair on its own spells none.
-/

namespace Granularity

/-- A JSON value with the spellings of its strings and numbers. -/
inductive Json where
  | null
  | bool (value : Bool)
  | number (literal : List Char)
  | string (spelling : List Char)
  | array (items : List Json)
  | object (members : List (List Char × Json))
deriving Repr, Inhabited

namespace Json

/-- The value of a hexadecimal digit. -/
def hexValue? (digit : Char) : Option Nat :=
  if '0' ≤ digit ∧ digit ≤ '9' then some (digit.toNat - '0'.toNat)
  else if 'a' ≤ digit ∧ digit ≤ 'f' then some (digit.toNat - 'a'.toNat + 10)
  else if 'A' ≤ digit ∧ digit ≤ 'F' then some (digit.toNat - 'A'.toNat + 10)
  else none

/-- The number that four hexadecimal digits spell. -/
def unit? (first second third fourth : Char) : Option Nat := do
  let a ← hexValue? first
  let b ← hexValue? second
  let c ← hexValue? third
  let d ← hexValue? fourth
  return ((a * 16 + b) * 16 + c) * 16 + d

/-- The letter of a short escape for a character. -/
def shortEscape? : Char → Option Char
  | '"' => some '"'
  | '\\' => some '\\'
  | '\x08' => some 'b'
  | '\t' => some 't'
  | '\n' => some 'n'
  | '\x0c' => some 'f'
  | '\r' => some 'r'
  | _ => none

/-- The character that a short escape with this letter stands for. -/
def unescaped? : Char → Option Char
  | '"' => some '"'
  | '\\' => some '\\'
  | '/' => some '/'
  | 'b' => some '\x08'
  | 't' => some '\t'
  | 'n' => some '\n'
  | 'f' => some '\x0c'
  | 'r' => some '\r'
  | _ => none

/-- A small hexadecimal digit. -/
def hexDigit (value : Nat) : Char :=
  Nat.digitChar value

/-- How one character is written. -/
def spellChar (character : Char) : List Char :=
  match shortEscape? character with
  | some letter => ['\\', letter]
  | none =>
      if character.toNat < 0x20 then
        ['\\', 'u', '0', '0', hexDigit (character.toNat / 16), hexDigit (character.toNat % 16)]
      else [character]

/-- How a text is written between its quotes. -/
def spell (text : List Char) : List Char :=
  text.flatMap spellChar

/-- A number below the surrogates, or above them, is the character of that number; half a pair is
none. -/
def charOfUnit? (unit : Nat) : Option Char :=
  if 0xD800 ≤ unit ∧ unit ≤ 0xDFFF then none else some (Char.ofNat unit)

/-- The character of a surrogate pair. -/
def charOfPair? (high low : Nat) : Option Char :=
  if 0xD800 ≤ high ∧ high ≤ 0xDBFF ∧ 0xDC00 ≤ low ∧ low ≤ 0xDFFF then
    some (Char.ofNat (0x10000 + (high - 0xD800) * 0x400 + (low - 0xDC00)))
  else none

/-- The text that a spelling stands for, if it stands for one. -/
def unspell? : List Char → Option (List Char)
  | [] => some []
  | '\\' :: 'u' :: a :: b :: c :: d :: rest =>
      match (unit? a b c d).bind charOfUnit? with
      | some character => (unspell? rest).map (character :: ·)
      | none =>
          match rest with
          | '\\' :: 'u' :: e :: f :: g :: h :: rest =>
              match unit? a b c d, unit? e f g h with
              | some high, some low =>
                  match charOfPair? high low with
                  | some character => (unspell? rest).map (character :: ·)
                  | none => none
              | _, _ => none
          | _ => none
  | '\\' :: letter :: rest =>
      match unescaped? letter with
      | some character => (unspell? rest).map (character :: ·)
      | none => none
  | character :: rest =>
      if character = '\\' then none else (unspell? rest).map (character :: ·)

/-- The value of a text. -/
def ofText (text : String) : Json :=
  string (spell text.toList)

/-- The text of a string that stands for one. -/
def text? : Json → Option String
  | string spelling => (unspell? spelling).map String.ofList
  | _ => none

/-! ### Reading back -/

theorem hexValue?_hexDigit : ∀ value < 16, hexValue? (hexDigit value) = some value := by decide

theorem unit?_hexDigits {value : Nat} (small : value < 0x20) :
    unit? '0' '0' (hexDigit (value / 16)) (hexDigit (value % 16)) = some value := by
  have zero : hexValue? '0' = some 0 := hexValue?_hexDigit 0 (by omega)
  have high := hexValue?_hexDigit (value / 16) (by omega)
  have low := hexValue?_hexDigit (value % 16) (by omega)
  simp only [unit?, zero, high, low, Option.bind_eq_bind, Option.bind_some]
  simp only [pure, Option.some.injEq]
  omega

theorem unescaped?_of_shortEscape? {character letter : Char}
    (short : shortEscape? character = some letter) :
    unescaped? letter = some character ∧ letter ≠ 'u' := by
  unfold shortEscape? at short
  split at short <;> simp_all [unescaped?] <;> subst short <;> decide

/-- A written character is read back before whatever follows it. -/
theorem unspell?_spellChar (character : Char) (rest : List Char) :
    unspell? (spellChar character ++ rest) = (unspell? rest).map (character :: ·) := by
  unfold spellChar
  cases short : shortEscape? character with
  | some letter =>
      obtain ⟨back, notUnit⟩ := unescaped?_of_shortEscape? short
      simp only [List.cons_append, List.nil_append]
      rw [unspell?]
      · simp [back]
      · intro a b c d tail same
        simp_all
  | none =>
      by_cases control : character.toNat < 0x20
      · have unit := unit?_hexDigits control
        have single : charOfUnit? character.toNat = some character := by
          simp [charOfUnit?, Char.ofNat_toNat]; omega
        simp only [control, if_true, List.cons_append, List.nil_append]
        rw [unspell?.eq_def]
        simp [unit, single]
      · have plain : character ≠ '\\' := by
          rintro rfl
          simp [shortEscape?] at short
        simp only [control, if_false, List.cons_append, List.nil_append]
        rw [unspell?.eq_def]
        split <;> simp_all

/-- A written text is read back. -/
theorem unspell?_spell (text : List Char) : unspell? (spell text) = some text := by
  induction text with
  | nil => rfl
  | cons character rest inductionHypothesis =>
      rw [spell, List.flatMap_cons, unspell?_spellChar]
      rw [spell] at inductionHypothesis
      rw [inductionHypothesis, Option.map_some]

@[simp] theorem text?_ofText (text : String) : text? (ofText text) = some text := by
  simp [text?, ofText, unspell?_spell]
end Json

end Granularity

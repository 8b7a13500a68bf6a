import Granularity.Json.Number
import Granularity.Json.Range
import Mathlib.Data.List.Basic
import Mathlib.Data.List.TakeWhile

/-!
Words of 64 bits as JSON numbers.

The decimal digits of a word are a plain literal, which spells the word again, stays within the
range of doubles, and needs no escapes as a key.
-/

namespace Granularity.Json

/-! ### Plain literals -/

theorem isPlain_cons {digit : Char} {digits : List Char} (notZero : digit ≠ '0') :
    isPlain (digit :: digits) = (digit :: digits).all Char.isDigit := by
  unfold isPlain
  split <;> simp_all

theorem exists_digit_of_isPlain {literal : List Char} (plain : isPlain literal = true) :
    ∃ digit digits, literal = digit :: digits ∧ digit.isDigit = true := by
  obtain ⟨allDigits, noZeroInFront⟩ := Bool.and_eq_true_iff.mp plain
  cases literal with
  | nil => cases noZeroInFront
  | cons digit digits =>
      exact ⟨digit, digits, rfl, List.all_eq_true.mp allDigits digit List.mem_cons_self⟩

/-- Only the digits of zero start with a zero. -/
theorem exists_toDigits_of_pos {value : Nat} (positive : 0 < value) :
    ∃ digit digits, Nat.toDigits 10 value = digit :: digits ∧ digit ≠ '0' := by
  induction value using Nat.strongRecOn with
  | ind value inductionHypothesis =>
      by_cases single : value < 10
      · refine ⟨value.digitChar, [], Nat.toDigits_of_lt_base single, ?_⟩
        have apart : ∀ digit < 10, 0 < digit → digit.digitChar ≠ '0' := by decide
        exact apart value single positive
      · obtain ⟨digit, digits, starts, notZero⟩ :=
          inductionHypothesis (value / 10) (by omega) (by omega)
        rw [Nat.toDigits_of_base_le (by decide) (by omega), starts]
        exact ⟨digit, _, rfl, notZero⟩

theorem isPlain_toDigits (value : Nat) : isPlain (Nat.toDigits 10 value) = true := by
  have allDigits : (Nat.toDigits 10 value).all Char.isDigit = true :=
    List.all_eq_true.mpr fun digit => Nat.isDigit_of_mem_toDigits (by decide) (by decide)
  rcases Nat.eq_zero_or_pos value with rfl | positive
  · rfl
  · obtain ⟨digit, digits, starts, notZero⟩ := exists_toDigits_of_pos positive
    rw [starts] at allDigits ⊢
    rw [isPlain_cons notZero, allDigits]

/-! ### The word of a literal -/

theorem digitsValue_cons (before : Nat) (digit : Char) (digits : List Char) :
    digitsValue before (digit :: digits) =
      digitsValue (before * 10 + (digit.toNat - '0'.toNat)) digits := by
  -- The equation by `rw` would compare the sums digit by digit.
  delta digitsValue
  rfl

theorem digitsValue_eq_ofDigitChars (digits : List Char) (before : Nat) :
    digitsValue before digits = Nat.ofDigitChars 10 digits before := by
  induction digits generalizing before with
  | nil => rfl
  | cons digit digits inductionHypothesis =>
      rw [digitsValue_cons, inductionHypothesis, Nat.mul_comm, Nat.ofDigitChars_cons]

theorem digitsValue_toDigits (value : Nat) : digitsValue 0 (Nat.toDigits 10 value) = value := by
  rw [digitsValue_eq_ofDigitChars, Nat.ofDigitChars_ten_toDigits]

/-- The digits of a word spell it. -/
theorem wordOfLiteral?_toDigits (word : UInt64) :
    wordOfLiteral? (Nat.toDigits 10 word.toNat) = some word := by
  rw [wordOfLiteral?, digitsValue_toDigits, if_pos ⟨isPlain_toDigits _, word.toNat_lt⟩,
    UInt64.ofNat_toNat]

@[simp] theorem word?_ofWord (word : UInt64) : word? (ofWord word) = some word :=
  wordOfLiteral?_toDigits word

/-! ### The range of doubles -/

theorem le_digitsValue (digits : List Char) (before : Nat) :
    before ≤ digitsValue before digits := by
  induction digits generalizing before with
  | nil => exact Nat.le_refl before
  | cons digit digits inductionHypothesis =>
      rw [digitsValue_cons]
      exact Nat.le_trans (by omega) (inductionHypothesis _)

/-- Digits that make up a word all fit. -/
theorem foldl_push {digits : List Char} {before : Nat}
    (fits : digitsValue before digits < UInt64.size) :
    digits.foldl (Significand.push true) ⟨before, 0, false⟩ =
      ⟨digitsValue before digits, 0, false⟩ := by
  induction digits generalizing before with
  | nil => rfl
  | cons digit digits inductionHypothesis =>
      rw [digitsValue_cons] at fits ⊢
      have small := Nat.lt_of_le_of_lt (le_digitsValue digits _) fits
      have fitting : Significand.push true ⟨before, 0, false⟩ digit =
          ⟨before * 10 + (digit.toNat - '0'.toNat), 0, false⟩ :=
        if_neg fun full => full.elim nofun (Nat.not_le.mpr small)
      rw [List.foldl_cons, fitting, inductionHypothesis fits]

/-- The digits of a word are within the range of doubles. -/
theorem inRange_toDigits (word : UInt64) : inRange (Nat.toDigits 10 word.toNat) = true := by
  have allDigits : ∀ digit ∈ Nat.toDigits 10 word.toNat, digit.isDigit = true :=
    fun digit => Nat.isDigit_of_mem_toDigits (by decide) (by decide)
  have fits : digitsValue 0 (Nat.toDigits 10 word.toNat) < UInt64.size := by
    rw [digitsValue_toDigits]
    exact word.toNat_lt
  generalize Nat.toDigits 10 word.toNat = literal at allDigits fits
  have apart (mark : Char) (noDigit : mark.isDigit = false) :
      ∀ digit ∈ literal, (digit != mark) = true := by
    intro digit member
    refine bne_iff_ne.mpr fun same => ?_
    rw [← same, allDigits digit member] at noDigit
    cases noDigit
  have unsigned : literal.dropWhile (· == '-') = literal := by
    cases literal with
    | nil => rfl
    | cons digit digits =>
        exact List.dropWhile_cons_of_neg
          (by simpa using apart '-' rfl digit List.mem_cons_self)
  have mantissa : ∀ digit ∈ literal, (digit != 'e' && digit != 'E') = true := by
    intro digit member
    rw [apart 'e' rfl digit member, apart 'E' rfl digit member, Bool.and_self]
  have power : (significandOf literal).exponent = 0 := by
    rw [significandOf, List.takeWhile_eq_self_iff.mpr mantissa,
      List.takeWhile_eq_self_iff.mpr (apart '.' rfl),
      List.dropWhile_eq_nil_iff.mpr (apart '.' rfl), foldl_push fits]
    rfl
  have written : writtenExponent literal = 0 := by
    rw [writtenExponent, List.dropWhile_eq_nil_iff.mpr mantissa]
    rfl
  simp [inRange, unsigned, power, written]

/-! ### Spelling -/

theorem spellChar_of_isDigit {digit : Char} (isDigit : digit.isDigit = true) :
    spellChar digit = [digit] := by
  have printable : ¬digit.toNat < 0x20 := fun control =>
    absurd (Nat.lt_of_le_of_lt (Char.isDigit_iff_toNat.mp isDigit).1 control) (by decide)
  have plain : shortEscape? digit = none := by
    unfold shortEscape?
    split
    case h_8 => rfl
    -- No character with a short escape is a digit.
    all_goals cases isDigit
  rw [spellChar, plain]
  exact if_neg printable

/-- Digits are written as they are. -/
theorem spell_toDigits (value : Nat) : spell (Nat.toDigits 10 value) = Nat.toDigits 10 value := by
  have plain : ∀ digit ∈ Nat.toDigits 10 value, spellChar digit = [digit] := fun digit member =>
    spellChar_of_isDigit (Nat.isDigit_of_mem_toDigits (by decide) (by decide) member)
  rw [spell, List.flatMap_congr plain, List.flatMap_singleton']

end Granularity.Json

import Granularity.Json.Spelling

/-!
Numbers in JSON.

A word of 64 bits is written in plain decimal digits, and only such a literal is read as one: no
sign, no fraction, no exponent, no zero in front.

Other numbers carry no meaning here, but a reader that takes every number of a document as a double
refuses those beyond its range.  Such a reader collects digits while they fit a word of 64 bits;
later digits before the point only raise the exponent, and later ones after it are dropped.  The
digits and the power of ten are each rounded to a double, and then their product is.
-/

namespace Granularity.Json

/-- The literal of a number without sign. -/
def ofNat (value : Nat) : Json :=
  number (Nat.toDigits 10 value)

/-- The literal of a word. -/
def ofWord (word : UInt64) : Json :=
  ofNat word.toNat

/-- The value of decimal digits in front of which `before` has been read. -/
def digitsValue (before : Nat) : List Char → Nat
  | [] => before
  | digit :: rest => digitsValue (before * 10 + (digit.toNat - '0'.toNat)) rest

/-- The literal is plain decimal digits without a zero in front of others. -/
def isPlain (literal : List Char) : Bool :=
  literal.all Char.isDigit &&
    (match literal with
    | [] => false
    | ['0'] => true
    | '0' :: _ :: _ => false
    | _ :: _ => true)

/-- The word that a literal spells. -/
def wordOfLiteral? (literal : List Char) : Option UInt64 :=
  if isPlain literal ∧ digitsValue 0 literal < UInt64.size then
    some (UInt64.ofNat (digitsValue 0 literal))
  else none

/-- The word that a number is. -/
def word? : Json → Option UInt64
  | number literal => wordOfLiteral? literal
  | _ => none

/-! ### The range of doubles -/

/-- A natural number rounded to 53 significant bits, a tie to the even neighbour. -/
def roundSignificant (value : Nat) : Nat :=
  let excess := value.log2 + 1 - 53
  let unit := Nat.pow 2 excess
  let quotient := value / unit
  let rest := value % unit
  let up := 2 * rest > unit ∨ 2 * rest = unit ∧ quotient % 2 = 1
  (if up then quotient + 1 else quotient) * unit

/-- The digits of a literal that fit a word, and the power of ten that they are to be taken by. -/
structure Significand where
  digits : Nat
  exponent : Int
  /-- No further digit fits. -/
  full : Bool

/-- Take one more digit, which stands before or after the point. -/
def Significand.push (beforePoint : Bool) (significand : Significand) (digit : Char) :
    Significand :=
  let larger := significand.digits * 10 + (digit.toNat - '0'.toNat)
  if significand.full ∨ UInt64.size ≤ larger then
    { significand with
      full := true
      exponent := if beforePoint then significand.exponent + 1 else significand.exponent }
  else
    { significand with
      digits := larger
      exponent := if beforePoint then significand.exponent else significand.exponent - 1 }

/-- The significand of a literal without sign: its digits up to the exponent. -/
def significandOf (literal : List Char) : Significand :=
  let mantissa := literal.takeWhile fun character => character != 'e' && character != 'E'
  let whole := mantissa.takeWhile (· != '.')
  let fraction := (mantissa.dropWhile (· != '.')).drop 1
  let start : Significand := whole.foldl (Significand.push true) ⟨0, 0, false⟩
  fraction.foldl (Significand.push false) { start with full := false }

/-- The exponent written in a literal, zero if there is none. -/
def writtenExponent (literal : List Char) : Int :=
  match (literal.dropWhile fun character => character != 'e' && character != 'E').drop 1 with
  | '-' :: digits => - (digitsValue 0 digits : Int)
  | '+' :: digits => digitsValue 0 digits
  | digits => digitsValue 0 digits

/-- The least number that rounds beyond the largest double, which is half a unit above it. -/
def rangeEnd : Nat :=
  (Nat.pow 2 54 - 1) * Nat.pow 2 970

/-- A literal stays within the range of doubles: its product rounds to one. -/
def inRange (literal : List Char) : Bool :=
  let significand := significandOf (literal.dropWhile (· == '-'))
  let exponent := significand.exponent + writtenExponent literal
  significand.digits == 0 || exponent ≤ 0 ||
    (exponent ≤ 308 &&
      roundSignificant significand.digits * roundSignificant (Nat.pow 10 exponent.toNat)
        < rangeEnd)

end Granularity.Json

import Granularity.Json.Spelling

/-!
Reading JSON.

The reader takes the syntax of the standard and nothing more: no comma after the last item, no
comment, nothing but blanks around the value.  Strings keep their spelling; the reader only checks
that no control character stands in them and that every escape has the right form.

A value, and each item or member after the first, takes at least one character, so twice the length
of a text bounds the depth of the reader's recursion.
-/

namespace Granularity.Json

/-- The characters that may stand between the parts of a document. -/
def isBlank (character : Char) : Bool :=
  character == ' ' || character == '\n' || character == '\t' || character == '\r'

/-- A text without the blanks in front. -/
def skipBlanks (text : List Char) : List Char :=
  text.dropWhile isBlank

/-- The spelling of a string up to its closing quote, and what follows the quote. -/
def readSpelling : List Char → Option (List Char × List Char)
  | [] => none
  | '"' :: rest => some ([], rest)
  | '\\' :: 'u' :: a :: b :: c :: d :: rest =>
      match unit? a b c d with
      | none => none
      | some _ =>
          (readSpelling rest).map fun (spelling, after) =>
            ('\\' :: 'u' :: a :: b :: c :: d :: spelling, after)
  | '\\' :: letter :: rest =>
      match unescaped? letter with
      | none => none
      | some _ => (readSpelling rest).map fun (spelling, after) =>
          ('\\' :: letter :: spelling, after)
  | character :: rest =>
      if character = '\\' ∨ character.toNat < 0x20 then none
      else (readSpelling rest).map fun (spelling, after) => (character :: spelling, after)

/-- At least one digit, and what follows the digits. -/
def readDigits (text : List Char) : Option (List Char × List Char) :=
  let digits := text.takeWhile Char.isDigit
  if digits.isEmpty then none else some (digits, text.dropWhile Char.isDigit)

/-- The part of a number before the point: digits, no zero in front of others. -/
def readWhole : List Char → Option (List Char × List Char)
  | '0' :: rest => some (['0'], rest)
  | text => readDigits text

/-- The point and the digits after it, if there is a point. -/
def readFraction : List Char → Option (List Char × List Char)
  | '.' :: rest => (readDigits rest).map fun (digits, after) => ('.' :: digits, after)
  | text => some ([], text)

/-- The exponent, if there is one. -/
def readExponent : List Char → Option (List Char × List Char)
  | letter :: rest =>
      if letter = 'e' ∨ letter = 'E' then
        match rest with
        | '+' :: rest => (readDigits rest).map fun (digits, after) =>
            (letter :: '+' :: digits, after)
        | '-' :: rest => (readDigits rest).map fun (digits, after) =>
            (letter :: '-' :: digits, after)
        | rest => (readDigits rest).map fun (digits, after) => (letter :: digits, after)
      else some ([], letter :: rest)
  | [] => some ([], [])

/-- A number without sign. -/
def readMagnitude (text : List Char) : Option (List Char × List Char) := do
  let (whole, rest) ← readWhole text
  let (fraction, rest) ← readFraction rest
  let (exponent, rest) ← readExponent rest
  return (whole ++ fraction ++ exponent, rest)

/-- The literal of a number, and what follows it. -/
def readNumber : List Char → Option (List Char × List Char)
  | '-' :: rest => (readMagnitude rest).map fun (literal, after) => ('-' :: literal, after)
  | text => readMagnitude text

mutual

/-- A value after any blanks, and what follows it. -/
def readValue : Nat → List Char → Option (Json × List Char)
  | 0, _ => none
  | depth + 1, text =>
      match skipBlanks text with
      | 'n' :: 'u' :: 'l' :: 'l' :: rest => some (.null, rest)
      | 't' :: 'r' :: 'u' :: 'e' :: rest => some (.bool true, rest)
      | 'f' :: 'a' :: 'l' :: 's' :: 'e' :: rest => some (.bool false, rest)
      | '"' :: rest => (readSpelling rest).map fun (spelling, after) => (.string spelling, after)
      | '[' :: rest =>
          match skipBlanks rest with
          | ']' :: after => some (.array [], after)
          | _ => (readItems depth rest).map fun (items, after) => (.array items, after)
      | '\x7b' :: rest =>
          match skipBlanks rest with
          | '\x7d' :: after => some (.object [], after)
          | _ => (readMembers depth rest).map fun (members, after) => (.object members, after)
      | start => (readNumber start).map fun (literal, after) => (.number literal, after)

/-- Items up to the end of their array, at least one. -/
def readItems : Nat → List Char → Option (List Json × List Char)
  | 0, _ => none
  | depth + 1, text =>
      match readValue depth text with
      | none => none
      | some (item, rest) =>
          match skipBlanks rest with
          | ',' :: rest => (readItems depth rest).map fun (items, after) => (item :: items, after)
          | ']' :: after => some ([item], after)
          | _ => none

/-- Members up to the end of their object, at least one. -/
def readMembers : Nat → List Char → Option (List (List Char × Json) × List Char)
  | 0, _ => none
  | depth + 1, text =>
      match skipBlanks text with
      | '"' :: rest =>
          match readSpelling rest with
          | none => none
          | some (key, rest) =>
              match skipBlanks rest with
              | ':' :: rest =>
                  match readValue depth rest with
                  | none => none
                  | some (value, rest) =>
                      match skipBlanks rest with
                      | ',' :: rest =>
                          (readMembers depth rest).map fun (members, after) =>
                            ((key, value) :: members, after)
                      | '\x7d' :: after => some ([(key, value)], after)
                      | _ => none
              | _ => none
      | _ => none

end

/-- The value that a document holds, with nothing but blanks around it. -/
def read? (document : List Char) : Option Json :=
  match readValue (2 * document.length + 2) document with
  | some (value, rest) => if (skipBlanks rest).isEmpty then some value else none
  | none => none

/-- The value that a text holds. -/
def ofDocument? (document : String) : Option Json :=
  read? document.toList

end Granularity.Json

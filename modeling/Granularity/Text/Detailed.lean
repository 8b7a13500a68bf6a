import Granularity.Text.Unprintable

/-!
Detailed texts of values, for messages and for inspection.

A text stands in double quotes.  The quote, the backslash and the common control characters have
short escapes; every other unprintable character is written by its code point in braces; all else
stands as it is.  A list stands in brackets, and a record lists its fields with their labels.
-/

namespace Granularity.Text

/-- The code point of a character in braces, in small hexadecimal digits without padding. -/
def codePointEscape (character : Char) : List Char :=
  "\\u\x7b".toList ++ Nat.toDigits 16 character.toNat ++ ['\x7d']

/-- How one character is written between the quotes. -/
def quotedChar (character : Char) : List Char :=
  match character with
  | '\x00' => ['\\', '0']
  | '\t' => ['\\', 't']
  | '\r' => ['\\', 'r']
  | '\n' => ['\\', 'n']
  | '"' => ['\\', '"']
  | '\\' => ['\\', '\\']
  | other => if isUnprintable other then codePointEscape other else [other]

/-- A text in double quotes. -/
def quoted (text : String) : String :=
  String.ofList ('"' :: text.toList.flatMap quotedChar ++ ['"'])

/-- The texts of a list's elements in brackets. -/
def bracketed (elements : List String) : String :=
  "[" ++ ", ".intercalate elements ++ "]"

/-- One field of a record with the text of its value. -/
structure Field where
  name : String
  value : String

/-- A field with its label. -/
def Field.text (field : Field) : String :=
  s!"{field.name}: {field.value}"

/-- A record's name, then its fields in braces; there is at least one field. -/
def record (name : String) (fields : List Field) : String :=
  name ++ " \x7b " ++ ", ".intercalate (fields.map Field.text) ++ " \x7d"

end Granularity.Text

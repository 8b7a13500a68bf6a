import Granularity.Json.Reader
import Granularity.Json.Writer
import Granularity.Proofs.Documents.Words

/-!
Written values are read back.

A layout of a value is a text that spells its strings as texts are spelled and its numbers in plain
digits, with any blanks between the parts.  The reader takes every layout to its value, and both
forms that the writer makes are layouts.
-/

namespace Granularity.Json

/-! ### Layouts -/

/-- Nothing but blanks. -/
def Blank (gap : List Char) : Prop :=
  ∀ character ∈ gap, isBlank character = true

mutual

/-- The text lays the value out. -/
inductive Layout : Json → List Char → Prop where
  | null : Layout null ['n', 'u', 'l', 'l']
  | yes : Layout (bool true) ['t', 'r', 'u', 'e']
  | no : Layout (bool false) ['f', 'a', 'l', 's', 'e']
  | number {literal : List Char} (plain : isPlain literal = true) :
      Layout (number literal) literal
  | string (text : List Char) : Layout (string (spell text)) (inQuotes (spell text))
  | noItems {gap : List Char} (blank : Blank gap) : Layout (array []) ('[' :: gap ++ [']'])
  | array {items : List Json} {text : List Char} (inner : ItemsLayout items text) :
      Layout (array items) ('[' :: text ++ [']'])
  | noMembers {gap : List Char} (blank : Blank gap) :
      Layout (object []) ('\x7b' :: gap ++ ['\x7d'])
  | object {members : List (List Char × Json)} {text : List Char}
      (inner : MembersLayout members text) : Layout (object members) ('\x7b' :: text ++ ['\x7d'])

/-- The text lays some items out, with commas between them. -/
inductive ItemsLayout : List Json → List Char → Prop where
  | last {item : Json} {before text after : List Char} (blankBefore : Blank before)
      (inner : Layout item text) (blankAfter : Blank after) :
      ItemsLayout [item] (before ++ text ++ after)
  | more {item : Json} {items : List Json} {before text after later : List Char}
      (blankBefore : Blank before) (inner : Layout item text) (blankAfter : Blank after)
      (rest : ItemsLayout items later) :
      ItemsLayout (item :: items) (before ++ text ++ after ++ ',' :: later)

/-- The text lays some members out, with commas between them. -/
inductive MembersLayout : List (List Char × Json) → List Char → Prop where
  | last {key : List Char} {value : Json} {before gap text after : List Char}
      (blankBefore : Blank before) (blankGap : Blank gap) (inner : Layout value text)
      (blankAfter : Blank after) :
      MembersLayout [(spell key, value)]
        (before ++ inQuotes (spell key) ++ ':' :: gap ++ text ++ after)
  | more {key : List Char} {value : Json} {members : List (List Char × Json)}
      {before gap text after later : List Char} (blankBefore : Blank before)
      (blankGap : Blank gap) (inner : Layout value text) (blankAfter : Blank after)
      (rest : MembersLayout members later) :
      MembersLayout ((spell key, value) :: members)
        (before ++ inQuotes (spell key) ++ ':' :: gap ++ text ++ after ++ ',' :: later)

end

/-! ### Blanks -/

theorem Blank.nil : Blank [] :=
  nofun

theorem isBlank_eq_true {character : Char} : isBlank character = true ↔
    character = ' ' ∨ character = '\n' ∨ character = '\t' ∨ character = '\r' := by
  simp [isBlank, or_assoc]

theorem skipBlanks_append {gap : List Char} (blank : Blank gap) (text : List Char) :
    skipBlanks (gap ++ text) = skipBlanks text := by
  rw [skipBlanks, List.dropWhile_append_of_pos blank]
  rfl

theorem skipBlanks_cons (character : Char) {text : List Char} (solid : isBlank character = false) :
    skipBlanks (character :: text) = character :: text := by
  rw [skipBlanks, List.dropWhile_cons_of_neg (by simp [solid])]

/-! ### Strings -/

/-- The spelling of a character goes on with what follows. -/
theorem readSpelling_spellChar (character : Char) (rest : List Char) :
    readSpelling (spellChar character ++ rest) =
      (readSpelling rest).map fun (spelling, after) =>
        (spellChar character ++ spelling, after) := by
  unfold spellChar
  cases short : shortEscape? character with
  | some letter =>
      obtain ⟨back, notUnit⟩ := unescaped?_of_shortEscape? short
      simp only [List.cons_append, List.nil_append]
      rw [readSpelling]
      · simp [back]
      · intro a b c d tail same
        simp_all
  | none =>
      by_cases control : character.toNat < 0x20
      · have unit := unit?_hexDigits control
        simp only [control, if_true, List.cons_append, List.nil_append]
        rw [readSpelling.eq_def]
        simp [unit]
      · have plain : character ≠ '\\' := by
          rintro rfl
          simp [shortEscape?] at short
        have unquoted : character ≠ '"' := by
          rintro rfl
          simp [shortEscape?] at short
        have solid : ¬(character = '\\' ∨ character.toNat < 0x20) := not_or.mpr ⟨plain, control⟩
        simp only [control, if_false, List.cons_append, List.nil_append]
        rw [readSpelling, if_neg solid]
        · exact unquoted
        · exact fun _ _ _ _ _ same => absurd same plain
        · exact fun _ _ same => absurd same plain

/-- The spelling of a text ends at its closing quote. -/
theorem readSpelling_spell (text rest : List Char) :
    readSpelling (spell text ++ '"' :: rest) = some (spell text, rest) := by
  induction text with
  | nil => rw [spell, List.flatMap_nil, List.nil_append, readSpelling]
  | cons character text inductionHypothesis =>
      have split : spell (character :: text) = spellChar character ++ spell text := rfl
      rw [split, List.append_assoc, readSpelling_spellChar, inductionHypothesis, Option.map_some]

/-! ### Numbers -/

/-- What follows cannot carry on a number. -/
def Closed (rest : List Char) : Prop :=
  ∀ character ∈ rest.head?,
    character.isDigit = false ∧ character ≠ '.' ∧ character ≠ 'e' ∧ character ≠ 'E'

theorem readDigits_append {digits rest : List Char} (some? : digits ≠ [])
    (allDigits : ∀ digit ∈ digits, digit.isDigit = true) (closed : Closed rest) :
    readDigits (digits ++ rest) = some (digits, rest) := by
  have stops : rest.takeWhile Char.isDigit = [] ∧ rest.dropWhile Char.isDigit = rest := by
    cases rest with
    | nil => exact ⟨rfl, rfl⟩
    | cons character rest =>
        have noDigit := (closed character rfl).1
        exact ⟨List.takeWhile_cons_of_neg (by simp [noDigit]),
          List.dropWhile_cons_of_neg (by simp [noDigit])⟩
  rw [readDigits, List.takeWhile_append_of_pos allDigits, List.dropWhile_append_of_pos allDigits,
    stops.1, stops.2, List.append_nil]
  simp [some?]

/-- What is closed holds neither a fraction nor an exponent in front. -/
theorem readMagnitude_of_readWhole {text literal rest : List Char}
    (whole : readWhole text = some (literal, rest)) (closed : Closed rest) :
    readMagnitude text = some (literal, rest) := by
  have noFraction : readFraction rest = some ([], rest) := by
    rw [readFraction.eq_def]
    split
    · next after => exact absurd rfl (closed '.' rfl).2.1
    · rfl
  have noExponent : readExponent rest = some ([], rest) := by
    cases rest with
    | nil => rfl
    | cons character rest =>
        obtain ⟨_, _, small, capital⟩ := closed character rfl
        simp [readExponent, small, capital]
  simp [readMagnitude, whole, noFraction, noExponent]

/-- The literal ends before what cannot carry it on. -/
theorem readNumber_of_isPlain {literal rest : List Char} (plain : isPlain literal = true)
    (closed : Closed rest) : readNumber (literal ++ rest) = some (literal, rest) := by
  obtain ⟨allDigits, noZeroInFront⟩ := Bool.and_eq_true_iff.mp plain
  rw [List.all_eq_true] at allDigits
  cases literal with
  | nil => cases noZeroInFront
  | cons digit digits =>
      have isDigit := allDigits digit List.mem_cons_self
      have unsigned : readNumber (digit :: digits ++ rest) =
          readMagnitude (digit :: digits ++ rest) := by
        rw [List.cons_append, readNumber.eq_def]
        split
        · next minus =>
            rw [(List.cons.inj minus).1] at isDigit
            cases isDigit
        · rfl
      rw [unsigned]
      apply readMagnitude_of_readWhole _ closed
      by_cases zero : digit = '0'
      · subst zero
        cases digits with
        | nil => rfl
        | cons second digits => cases noZeroInFront
      · rw [List.cons_append, readWhole.eq_def]
        split
        · next same => exact absurd (List.cons.inj same).1 zero
        · exact readDigits_append (List.cons_ne_nil digit digits) allDigits closed

/-! ### Reading a layout -/

/-- A layout starts neither with a blank nor with a closing bracket. -/
theorem Layout.exists_start {value : Json} {text : List Char} (layout : Layout value text) :
    ∃ first more, text = first :: more ∧ isBlank first = false ∧ first ≠ ']' := by
  cases layout with
  | number plain =>
      obtain ⟨digit, digits, rfl, isDigit⟩ := exists_digit_of_isPlain plain
      refine ⟨digit, digits, rfl, Bool.eq_false_iff.mpr fun blank => ?_, ?_⟩
      · rcases isBlank_eq_true.mp blank with rfl | rfl | rfl | rfl <;> cases isDigit
      · rintro rfl
        cases isDigit
  | null | yes | no | string | noItems | array | noMembers | object =>
      exact ⟨_, _, rfl, rfl, by decide⟩

theorem ItemsLayout.exists_start {items : List Json} {text : List Char}
    (layout : ItemsLayout items text) : ∃ gap first more, text = gap ++ first :: more ∧
      Blank gap ∧ isBlank first = false ∧ first ≠ ']' := by
  cases layout with
  | last blankBefore inner blankAfter | more blankBefore inner blankAfter others =>
      obtain ⟨first, more, rfl, solid, inside⟩ := inner.exists_start
      simp only [List.append_assoc, List.cons_append]
      exact ⟨_, first, _, rfl, blankBefore, solid, inside⟩

theorem MembersLayout.exists_start {members : List (List Char × Json)} {text : List Char}
    (layout : MembersLayout members text) : ∃ gap more, text = gap ++ '"' :: more ∧
      Blank gap := by
  cases layout with
  | last blankBefore | more blankBefore =>
      simp only [inQuotes, List.append_assoc, List.cons_append]
      exact ⟨_, _, rfl, blankBefore⟩

/-- Blanks carry on no number. -/
theorem Blank.closed_append {gap rest : List Char} (blank : Blank gap) (closed : Closed rest) :
    Closed (gap ++ rest) := by
  cases gap with
  | nil => exact closed
  | cons character gap =>
      rintro _ ⟨⟩
      rcases isBlank_eq_true.mp (blank character List.mem_cons_self) with rfl | rfl | rfl | rfl <;>
        decide

theorem closed_cons {character : Char} (rest : List Char)
    (mark : character = ',' ∨ character = ']' ∨ character = '\x7d') :
    Closed (character :: rest) := by
  rintro _ ⟨⟩
  rcases mark with rfl | rfl | rfl <;> decide

/-- Blanks in front of a value are passed over. -/
theorem readValue_blank {gap : List Char} (blank : Blank gap) (depth : Nat) (text : List Char) :
    readValue depth (gap ++ text) = readValue depth text := by
  cases depth with
  | zero => rfl
  | succ depth => rw [readValue, readValue, skipBlanks_append blank]

theorem readValue_number {literal rest : List Char} (plain : isPlain literal = true)
    (closed : Closed rest) (depth : Nat) :
    readValue (depth + 1) (literal ++ rest) = some (number literal, rest) := by
  have read := readNumber_of_isPlain plain closed
  obtain ⟨digit, digits, rfl, isDigit⟩ := exists_digit_of_isPlain plain
  obtain ⟨_, _, ⟨⟩, solid, _⟩ := (Layout.number plain).exists_start
  rw [List.cons_append] at read ⊢
  rw [readValue, skipBlanks_cons _ solid]
  split
  case h_7 => rw [read, Option.map_some]
  -- No other value starts with a digit.
  all_goals
    next same =>
      rw [(List.cons.inj same).1] at isDigit
      cases isDigit

mutual

/-- The reader takes a layout of a value to the value. -/
theorem readValue_layout {value : Json} {text : List Char} (layout : Layout value text)
    {depth : Nat} {rest : List Char} (enough : 2 * text.length ≤ depth) (closed : Closed rest) :
    readValue depth (text ++ rest) = some (value, rest) := by
  obtain ⟨first, more, starts, solid, _⟩ := layout.exists_start
  obtain ⟨depth, rfl⟩ : ∃ less, depth = less + 1 :=
    Nat.exists_eq_add_one_of_ne_zero (by rw [starts, List.length_cons] at enough; omega)
  cases layout with
  | null | yes | no => rfl
  | number plain => exact readValue_number plain closed depth
  | string text =>
      have read := readSpelling_spell text rest
      simp only [inQuotes, List.cons_append, List.append_assoc, List.nil_append]
      rw [readValue, skipBlanks_cons _ rfl]
      simp only [read, Option.map_some]
  | noItems blank =>
      simp only [List.cons_append, List.append_assoc, List.nil_append]
      rw [readValue, skipBlanks_cons _ rfl]
      simp only [skipBlanks_append blank, skipBlanks_cons ']' rfl]
  | array inner =>
      have read : readItems depth (_ ++ ']' :: rest) = some (_, rest) := readItems_layout inner
        (by simp only [List.length_cons, List.length_append] at enough; omega)
      simp only [List.cons_append, List.append_assoc, List.nil_append]
      rw [readValue, skipBlanks_cons _ rfl]
      obtain ⟨gap, first, more, rfl, blank, solid, inside⟩ := inner.exists_start
      simp only [read, Option.map_some]
      split
      · next closing =>
          rw [List.append_assoc, skipBlanks_append blank, List.cons_append, skipBlanks_cons _ solid]
            at closing
          exact absurd (List.cons.inj closing).1 inside
      · rfl
  | noMembers blank =>
      simp only [List.cons_append, List.append_assoc, List.nil_append]
      rw [readValue, skipBlanks_cons _ rfl]
      simp only [skipBlanks_append blank, skipBlanks_cons '\x7d' rfl]
  | object inner =>
      have read : readMembers depth (_ ++ '\x7d' :: rest) = some (_, rest) :=
        readMembers_layout inner
          (by simp only [List.length_cons, List.length_append] at enough; omega)
      simp only [List.cons_append, List.append_assoc, List.nil_append]
      rw [readValue, skipBlanks_cons _ rfl]
      obtain ⟨gap, more, rfl, blank⟩ := inner.exists_start
      simp only [read, Option.map_some]
      split
      · next closing =>
          rw [List.append_assoc, skipBlanks_append blank, List.cons_append, skipBlanks_cons _ rfl]
            at closing
          exact absurd (List.cons.inj closing).1 (by decide)
      · rfl

/-- The reader takes a layout of items to the items. -/
theorem readItems_layout {items : List Json} {text : List Char} (layout : ItemsLayout items text)
    {depth : Nat} {rest : List Char} (enough : 2 * text.length + 1 ≤ depth) :
    readItems depth (text ++ ']' :: rest) = some (items, rest) := by
  obtain ⟨depth, rfl⟩ : ∃ less, depth = less + 1 :=
    Nat.exists_eq_add_one_of_ne_zero (by omega)
  cases layout with
  | last blankBefore inner blankAfter =>
      simp only [List.length_append] at enough
      have read : readValue depth _ = some (_, _) := readValue_layout inner (by omega)
        (blankAfter.closed_append (closed_cons rest (.inr (.inl rfl))))
      simp only [List.append_assoc]
      rw [readItems, readValue_blank blankBefore, read]
      simp only [skipBlanks_append blankAfter, skipBlanks_cons ']' rfl]
  | @more item items before text after later blankBefore inner blankAfter others =>
      simp only [List.length_append, List.length_cons] at enough
      have read : readValue depth _ = some (_, _) := readValue_layout inner (by omega)
        (blankAfter.closed_append (closed_cons (later ++ ']' :: rest) (.inl rfl)))
      have readLater : readItems depth (later ++ ']' :: rest) = some (items, rest) :=
        readItems_layout others (by omega)
      simp only [List.append_assoc, List.cons_append]
      rw [readItems, readValue_blank blankBefore, read]
      simp only [skipBlanks_append blankAfter, skipBlanks_cons ',' rfl, readLater,
        Option.map_some]

/-- The reader takes a layout of members to the members. -/
theorem readMembers_layout {members : List (List Char × Json)} {text : List Char}
    (layout : MembersLayout members text) {depth : Nat} {rest : List Char}
    (enough : 2 * text.length + 1 ≤ depth) :
    readMembers depth (text ++ '\x7d' :: rest) = some (members, rest) := by
  obtain ⟨depth, rfl⟩ : ∃ less, depth = less + 1 :=
    Nat.exists_eq_add_one_of_ne_zero (by omega)
  cases layout with
  | last blankBefore blankGap inner blankAfter =>
      simp only [List.length_append, List.length_cons] at enough
      have read : readValue depth _ = some (_, _) := readValue_layout inner (by omega)
        (blankAfter.closed_append (closed_cons rest (.inr (.inr rfl))))
      simp only [inQuotes, List.append_assoc, List.cons_append, List.nil_append]
      rw [readMembers, skipBlanks_append blankBefore, skipBlanks_cons _ rfl]
      simp only [readSpelling_spell, skipBlanks_cons ':' rfl,
        readValue_blank blankGap, read, skipBlanks_append blankAfter,
        skipBlanks_cons '\x7d' rfl]
  | @more key value members before gap text after later blankBefore blankGap inner blankAfter
      others =>
      simp only [List.length_append, List.length_cons] at enough
      have read : readValue depth _ = some (_, _) := readValue_layout inner (by omega)
        (blankAfter.closed_append (closed_cons (later ++ '\x7d' :: rest) (.inl rfl)))
      have readLater : readMembers depth (later ++ '\x7d' :: rest) = some (members, rest) :=
        readMembers_layout others (by omega)
      simp only [inQuotes, List.append_assoc, List.cons_append, List.nil_append]
      rw [readMembers, skipBlanks_append blankBefore, skipBlanks_cons _ rfl]
      simp only [readSpelling_spell, skipBlanks_cons ':' rfl,
        readValue_blank blankGap, read, skipBlanks_append blankAfter,
        skipBlanks_cons ',' rfl, readLater, Option.map_some]

end

/-- A document that lays a value out holds this value. -/
theorem read?_layout {value : Json} {text : List Char} (layout : Layout value text) :
    read? text = some value := by
  have read : readValue (2 * text.length + 2) (text ++ []) = some (value, []) :=
    readValue_layout layout (by omega) nofun
  rw [List.append_nil] at read
  rw [read?, read]
  rfl

/-! ### What the writer makes -/

/-- The strings and keys of a value are spelled as texts are, and its numbers are words. -/
inductive Spelled : Json → Prop where
  | null : Spelled null
  | bool (value : Bool) : Spelled (bool value)
  | word (word : UInt64) : Spelled (ofWord word)
  | string (text : List Char) : Spelled (string (spell text))
  | array {items : List Json} (spelled : ∀ item ∈ items, Spelled item) : Spelled (array items)
  | object {members : List (List Char × Json)}
      (keys : ∀ member ∈ members, ∃ key, member.1 = spell key)
      (spelled : ∀ member ∈ members, Spelled member.2) : Spelled (object members)

theorem compactItems_layout {items : List Json} (some? : items ≠ [])
    (laysOut : ∀ item ∈ items, Layout item item.compact) :
    ItemsLayout items (compactItems items) := by
  induction items with
  | nil => exact absurd rfl some?
  | cons item items inductionHypothesis =>
      obtain ⟨first, others⟩ := List.forall_mem_cons.mp laysOut
      cases items with
      | nil => simpa [compactItems] using ItemsLayout.last .nil first .nil
      | cons second items =>
          have more := inductionHypothesis (List.cons_ne_nil second items) others
          simpa [compactItems] using ItemsLayout.more .nil first .nil more

theorem compactMembers_layout {members : List (List Char × Json)} (some? : members ≠ [])
    (keys : ∀ member ∈ members, ∃ key, member.1 = spell key)
    (laysOut : ∀ member ∈ members, Layout member.2 member.2.compact) :
    MembersLayout members (compactMembers members) := by
  induction members with
  | nil => exact absurd rfl some?
  | cons member members inductionHypothesis =>
      obtain ⟨⟨key, spells⟩, otherKeys⟩ := List.forall_mem_cons.mp keys
      obtain ⟨first, others⟩ := List.forall_mem_cons.mp laysOut
      obtain ⟨_, value⟩ := member
      subst spells
      cases members with
      | nil => simpa [compactMembers] using MembersLayout.last .nil .nil first .nil
      | cons second members =>
          have more := inductionHypothesis (List.cons_ne_nil second members) otherKeys others
          simpa [compactMembers] using MembersLayout.more .nil .nil first .nil more

/-- The compact form of a value lays it out. -/
theorem compact_layout {value : Json} (spelled : Spelled value) : Layout value value.compact := by
  induction spelled with
  | null => exact .null
  | bool value => cases value <;> constructor
  | word word => exact .number (isPlain_toDigits word.toNat)
  | string text => exact .string text
  | @array items spelled inductionHypothesis =>
      cases items with
      | nil => exact .noItems .nil
      | cons item items =>
          exact .array (compactItems_layout (List.cons_ne_nil item items) inductionHypothesis)
  | @object members keys spelled inductionHypothesis =>
      cases members with
      | nil => exact .noMembers .nil
      | cons member members =>
          exact .object
            (compactMembers_layout (List.cons_ne_nil member members) keys inductionHypothesis)

theorem blank_newLine (depth : Nat) : Blank (newLine depth) := by
  simp [Blank, newLine, isBlank]

theorem laidOutItems_layout {items : List Json} {depth : Nat} {gap : List Char} (blank : Blank gap)
    (some? : items ≠ []) (laysOut : ∀ item ∈ items, Layout item (item.laidOut depth)) :
    ItemsLayout items (laidOutItems depth items ++ gap) := by
  induction items with
  | nil => exact absurd rfl some?
  | cons item items inductionHypothesis =>
      obtain ⟨first, others⟩ := List.forall_mem_cons.mp laysOut
      cases items with
      | nil => simpa [laidOutItems] using ItemsLayout.last (blank_newLine depth) first blank
      | cons second items =>
          have more := inductionHypothesis (List.cons_ne_nil second items) others
          simpa [laidOutItems] using ItemsLayout.more (blank_newLine depth) first .nil more

theorem laidOutMembers_layout {members : List (List Char × Json)} {depth : Nat} {gap : List Char}
    (blank : Blank gap) (some? : members ≠ [])
    (keys : ∀ member ∈ members, ∃ key, member.1 = spell key)
    (laysOut : ∀ member ∈ members, Layout member.2 (member.2.laidOut depth)) :
    MembersLayout members (laidOutMembers depth members ++ gap) := by
  have space : Blank [' '] := by simp [Blank, isBlank]
  induction members with
  | nil => exact absurd rfl some?
  | cons member members inductionHypothesis =>
      obtain ⟨⟨key, spells⟩, otherKeys⟩ := List.forall_mem_cons.mp keys
      obtain ⟨first, others⟩ := List.forall_mem_cons.mp laysOut
      obtain ⟨_, value⟩ := member
      subst spells
      cases members with
      | nil =>
          simpa [laidOutMembers] using MembersLayout.last (blank_newLine depth) space first blank
      | cons second members =>
          have more := inductionHypothesis (List.cons_ne_nil second members) otherKeys others
          simpa [laidOutMembers] using
            MembersLayout.more (blank_newLine depth) space first .nil more

/-- The form of a value on many lines lays it out, however deep it stands. -/
theorem laidOut_layout {value : Json} (spelled : Spelled value) (depth : Nat) :
    Layout value (value.laidOut depth) := by
  induction spelled generalizing depth with
  | null => exact .null
  | bool value => cases value <;> constructor
  | word word => exact .number (isPlain_toDigits word.toNat)
  | string text => exact .string text
  | @array items spelled inductionHypothesis =>
      cases items with
      | nil => exact .noItems .nil
      | cons item items =>
          exact .array (laidOutItems_layout (blank_newLine depth) (List.cons_ne_nil item items)
            fun item member => inductionHypothesis item member (depth + 1))
  | @object members keys spelled inductionHypothesis =>
      cases members with
      | nil => exact .noMembers .nil
      | cons member members =>
          exact .object (laidOutMembers_layout (blank_newLine depth)
            (List.cons_ne_nil member members) keys
            fun member among => inductionHypothesis member among (depth + 1))

/-- A written value is read back, in its compact form and on many lines. -/
theorem ofDocument?_text {value : Json} (spelled : Spelled value) :
    ofDocument? value.text = some value ∧ ofDocument? value.prettyText = some value := by
  constructor
  · rw [ofDocument?, text, String.toList_ofList, read?_layout (compact_layout spelled)]
  · rw [ofDocument?, prettyText, String.toList_ofList, read?_layout (laidOut_layout spelled 0)]

end Granularity.Json

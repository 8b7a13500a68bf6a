/-!
The modes in which a resource of a hierarchy can be locked.

`S` and `X` lock a whole subtree, for reading and for writing.  `IS` and `IX` announce that
something beneath is read or written, `SIX` reads the whole subtree and announces writes beneath,
and `NL` stands for no lock at all.

Three relations govern the modes.  `Mode.compatible` says which modes different transactions may
hold on one resource, `Mode.covers` which mode satisfies a demand for another, and `Mode.admits`
which modes a holder may take on the children of a resource.
-/

namespace Granularity

/-- The six modes, in the order in which they are numbered. -/
inductive Mode where
  /-- No lock. -/
  | NL
  /-- Intention to share something beneath. -/
  | IS
  /-- Intention to write something beneath. -/
  | IX
  /-- Shared: reads the whole subtree. -/
  | S
  /-- Shared, with the intention to write something beneath. -/
  | SIX
  /-- Exclusive: reads and writes the whole subtree. -/
  | X
deriving DecidableEq, Repr

namespace Mode

instance : Inhabited Mode := ⟨NL⟩

/-- Every mode once, in numbering order. -/
def all : List Mode := [NL, IS, IX, S, SIX, X]

/-- The place of a mode in `Mode.all`. -/
def index : Mode → Nat
  | NL => 0
  | IS => 1
  | IX => 2
  | S => 3
  | SIX => 4
  | X => 5

/-- The written form of a mode, in capitals. -/
def text : Mode → String
  | NL => "NL"
  | IS => "IS"
  | IX => "IX"
  | S => "S"
  | SIX => "SIX"
  | X => "X"

instance : ToString Mode := ⟨Mode.text⟩

/-- Two words are the same when capitals and small ASCII letters are not told apart.  Letters
outside ASCII have no second case here. -/
def sameWord (first second : String) : Bool :=
  first.toList.map Char.toLower == second.toList.map Char.toLower

/-- The mode that a word names in either case; surrounding blanks are part of the word. -/
def ofText? (word : String) : Option Mode :=
  all.find? fun mode => sameWord mode.text word

/-- Different transactions may hold these two modes on one resource at the same time. -/
def compatible : Mode → Mode → Bool
  | NL, _ | _, NL => true
  | X, _ | _, X => false
  | IS, _ | _, IS => true
  | IX, IX => true
  | S, S => true
  | _, _ => false

/-- Holding `held` satisfies a demand for `need`. -/
def covers (held need : Mode) : Bool :=
  match held, need with
  | _, NL => true
  | NL, _ => false
  | X, _ => true
  | SIX, need => need != X
  | S, need => need == S || need == IS
  | IX, need => need == IX || need == IS
  | IS, need => need == IS

/-- A holder of `parent` may take `child` on a child of the resource.  `S` and `X` already lock
the subtree, so they admit nothing beneath; beneath `SIX` reading needs no lock of its own. -/
def admits (parent child : Mode) : Bool :=
  match parent, child with
  | _, NL => true
  | IX, _ => true
  | IS, child => child == IS || child == S
  | SIX, child => child == IX || child == X
  | _, _ => false

/-- The weakest mode to hold on the parent before this mode can be asked for. -/
def intention : Mode → Mode
  | S | IS => IS
  | X | IX | SIX => IX
  | NL => NL

/-- The mode announces locks beneath. -/
def isIntent : Mode → Bool
  | IS | IX | SIX => true
  | NL | S | X => false

/-! ### Laws -/

/-- Compatibility does not depend on who holds which mode. -/
theorem compatible_comm (first second : Mode) :
    compatible first second = compatible second first := by
  cases first <;> cases second <;> rfl

theorem covers_self (mode : Mode) : covers mode mode = true := by
  cases mode <;> rfl

theorem covers_trans {strong middle weak : Mode} (upper : covers strong middle = true)
    (lower : covers middle weak = true) : covers strong weak = true := by
  cases strong <;> cases middle <;> cases weak <;> simp_all [covers]

/-- Whatever fits beside a mode fits beside every mode that it covers. -/
theorem compatible_of_covers {strong weak other : Mode} (covered : covers strong weak = true)
    (fits : compatible strong other = true) : compatible weak other = true := by
  cases strong <;> cases weak <;> cases other <;> simp_all [covers, compatible]

theorem covers_NL (mode : Mode) : covers mode NL = true := by
  cases mode <;> rfl

/-- `NL` satisfies no other demand. -/
theorem eq_NL_of_covers_NL {need : Mode} (covered : covers NL need = true) : need = NL := by
  cases need <;> simp_all [covers]

/-- A mode that covers the intention for another announces as much. -/
theorem covers_intention {upper lower : Mode} (covered : covers upper lower.intention = true) :
    covers upper.intention lower.intention = true := by
  cases upper <;> cases lower <;> simp_all [covers, intention]

/-- Whatever admits a mode covers the intention for it. -/
theorem covers_of_admits {parent child : Mode} (admitted : admits parent child = true) :
    covers parent child.intention = true := by
  cases parent <;> cases child <;> simp_all [admits, covers, intention]

/-- Beneath a mode that covers only the intention to read, nothing but reading is announced. -/
theorem reads_of_covers {upper lower : Mode} (reads : upper = S ∨ upper = IS)
    (covered : covers upper lower.intention = true) : lower = NL ∨ lower = S ∨ lower = IS := by
  rcases reads with rfl | rfl <;> cases lower <;> simp_all [covers, intention]

theorem ne_NL_of_isIntent {mode : Mode} (intent : mode.isIntent = true) : mode ≠ NL := by
  rintro rfl
  cases intent

/-- Every mode that announces locks beneath is itself announced by `IS` at least. -/
theorem covers_IS_of_isIntent {mode : Mode} (intent : mode.isIntent = true) :
    covers mode.intention IS = true := by
  cases mode <;> simp_all [isIntent, covers, intention]

/-- What announces writing fits beside no mode that reads or writes the whole subtree. -/
theorem compatible_eq_false_of_covers_IX {writing whole : Mode}
    (covered : covers writing IX = true) (reads : whole ∈ [S, SIX, X]) :
    compatible writing whole = false := by
  cases writing <;> cases whole <;> simp_all [covers, compatible]

/-- Only `NL` fits beside `X`. -/
theorem eq_NL_of_compatible_X {mode : Mode} (fits : compatible X mode = true) : mode = NL := by
  cases mode <;> simp_all [compatible]

/-- Only `NL` announces nothing. -/
theorem eq_NL_of_intention {mode : Mode} (silent : mode.intention = NL) : mode = NL := by
  cases mode <;> simp_all [intention]

theorem admits_NL (parent : Mode) : admits parent NL = true := by
  cases parent <;> rfl

theorem admits_IX (child : Mode) : admits IX child = true := by
  cases child <;> rfl

theorem eq_NL_of_NL_admits {child : Mode} (admitted : admits NL child = true) : child = NL := by
  cases child <;> simp_all [admits]

/-- Only a mode that announces locks beneath admits any. -/
theorem isIntent_of_admits {parent child : Mode} (locked : child ≠ NL)
    (admitted : admits parent child = true) : parent.isIntent = true := by
  cases parent <;> cases child <;> simp_all [admits, isIntent]

/-- `SIX` admits what writes beneath, but not another `SIX`. -/
theorem admits_SIX {child : Mode} (notS : child ≠ S) (notIS : child ≠ IS) (notSIX : child ≠ SIX) :
    admits SIX child = true := by
  cases child <;> simp_all [admits]

/-- Modes that lock the whole subtree admit nothing beneath. -/
theorem eq_NL_of_admits {parent child : Mode} (whole : parent = S ∨ parent = X)
    (admitted : admits parent child = true) : child = NL := by
  rcases whole with rfl | rfl <;> cases child <;> simp_all [admits]

/-- What admits a mode that announces locks beneath, and covers `IX`, admits `X`. -/
theorem admits_X {parent child : Mode} (intent : child.isIntent = true)
    (admitted : admits parent child = true) (announced : covers parent IX = true) :
    admits parent X = true := by
  cases parent <;> cases child <;> simp_all [isIntent, admits, covers]

/-- What admits a mode that announces reading alone admits `S`. -/
theorem admits_S {parent child : Mode} (intent : child.isIntent = true)
    (reads : child.intention ≠ IX) (admitted : admits parent child = true) :
    admits parent S = true := by
  cases parent <;> cases child <;> simp_all [isIntent, admits, intention]

/-- What a lock can be promoted to, apart from `SIX`. -/
theorem promoted_cases {strong weak : Mode} (held : weak ≠ NL) (raised : weak ≠ strong)
    (covered : covers strong weak = true) (plain : strong ≠ SIX) :
    strong = IX ∨ strong = S ∨ strong = X := by
  cases strong <;> cases weak <;> simp_all [covers]

/-- The intention for a mode admits it. -/
theorem admits_intention (mode : Mode) : admits mode.intention mode = true := by
  cases mode <;> rfl

/-- What announces locks beneath admits its own announcement there. -/
theorem admits_intention_of_isIntent {mode : Mode} (intent : mode.isIntent = true) :
    admits mode mode.intention = true := by
  cases mode <;> simp_all [isIntent, intention, admits]

end Mode

end Granularity

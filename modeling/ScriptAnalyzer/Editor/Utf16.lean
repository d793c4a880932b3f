import ScriptAnalyzer.Json.Value
import ScriptAnalyzer.Text.Position
import ScriptAnalyzer.Text.Split

/-!
Positions as an editor counts them: a column is a number of UTF-16 units.

The two ways of counting differ on the characters of a line alone. A column behind the end of its line
keeps its distance from the end, and one in the middle of a character counts for the place behind it.
-/

namespace ScriptAnalyzer

/-- A line and a column, counted from zero, the column in UTF-16 units. -/
structure UnitPosition where
  line : Nat
  column : Nat
deriving DecidableEq, Repr

structure UnitRange where
  start : UnitPosition
  stop : UnitPosition
deriving DecidableEq, Repr

/-- The number of UTF-16 units of a character. -/
def unitCount (c : Char) : Nat := if c.toNat < 0x10000 then 1 else 2

/-- The number of characters that begin in the first `units` units of a line. -/
def charsOfUnits : Text → (units : Nat) → Nat
  | _, 0 => 0
  | [], units => units
  | c :: cs, units => charsOfUnits cs (units - unitCount c) + 1

/-- The number of units of the first `chars` characters of a line. -/
def unitsOfChars : Text → (chars : Nat) → Nat
  | _, 0 => 0
  | [], chars => chars
  | c :: cs, chars + 1 => unitsOfChars cs chars + unitCount c

/-- The text without a carriage return at its end. -/
def withoutReturn (line : Text) : Text := if line.getLast? = some '\r' then line.dropLast else line

/-- A line of an editor's text: a piece between line feeds, without a carriage return at its end. -/
def editorLine? (text : Text) (line : Nat) : Option Text :=
  (Text.splitOn '\n' text)[line]?.map withoutReturn

/-- The position that an editor means. A column of a missing line stays as it is. -/
def UnitPosition.inText (p : UnitPosition) (text : Text) : Position :=
  ⟨p.line, (editorLine? text p.line).elim p.column (charsOfUnits · p.column)⟩

def Position.inUnits (p : Position) (text : Text) : UnitPosition :=
  ⟨p.line, (editorLine? text p.line).elim p.character (unitsOfChars · p.character)⟩

def Range.inUnits (r : Range) (text : Text) : UnitRange :=
  ⟨r.start.inUnits text, r.stop.inUnits text⟩

def UnitPosition.toJson (p : UnitPosition) : Json :=
  .object [("line", .nat p.line), ("character", .nat p.column)]

def UnitRange.toJson (r : UnitRange) : Json :=
  .object [("start", r.start.toJson), ("end", r.stop.toJson)]

end ScriptAnalyzer

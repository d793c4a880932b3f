import ScriptAnalyzer.Project.Path
import ScriptAnalyzer.Text.Span

/-!
The documents that an editor has open, each with its text and the editor's version of it.
-/

namespace ScriptAnalyzer

structure Document where
  text : Text
  version : Int
deriving DecidableEq, Repr

namespace Document

/-- Characters that end a line: line feed, vertical tab, form feed, carriage return, next line, and
the separators of lines and paragraphs. -/
def isLineBreak (c : Char) : Bool :=
  (0xA ≤ c.toNat && c.toNat ≤ 0xD) || c.toNat = 0x85 || c.toNat = 0x2028 || c.toNat = 0x2029

/-- Puts a character in front of the first line. -/
def consFirst (c : Char) : List Text → List Text
  | [] => [[c]]
  | line :: lines => (c :: line) :: lines

/-- The lines of a text, each with what ends it; the last one is not ended. A carriage return and a line
feed end a line together. -/
def brokenLines : Text → List Text
  | [] => [[]]
  | '\r' :: '\n' :: cs => ['\r', '\n'] :: brokenLines cs
  | c :: cs => if isLineBreak c then [c] :: brokenLines cs else consFirst c (brokenLines cs)

/-- The text without this character at its end. -/
def dropLastIf (c : Char) (line : Text) : Text := if line.getLast? = some c then line.dropLast else line

/-- A line without a line feed, and then without a carriage return, at its end. -/
def line? (d : Document) (n : Nat) : Option Text :=
  (brokenLines d.text)[n]?.map fun line => dropLastIf '\r' (dropLastIf '\n' line)

end Document

structure Documents where
  entries : List (Path × Document) := []

namespace Documents

def find? (ds : Documents) (path : Path) : Option Document :=
  (ds.entries.find? (·.1 == path)).map (·.2)

/-- Opens a document, or replaces the text and version of an open one. -/
def put (ds : Documents) (path : Path) (d : Document) : Documents :=
  if ds.entries.any (·.1 == path) then
    ⟨ds.entries.map fun e => if e.1 == path then (e.1, d) else e⟩
  else ⟨ds.entries ++ [(path, d)]⟩

def close (ds : Documents) (path : Path) : Documents := ⟨ds.entries.filter (!·.1 == path)⟩

def paths (ds : Documents) : List Path := ds.entries.map (·.1)

end Documents
end ScriptAnalyzer

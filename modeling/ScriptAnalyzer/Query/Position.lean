import ScriptAnalyzer.Token.Class
import ScriptAnalyzer.Typing.Lookup

/-!
Places of a checked file, addressed by an editor whose text may have moved on.
-/

namespace ScriptAnalyzer
namespace CheckResult

/-- Whether a line has changed since the text was checked. -/
def isStale (r : CheckResult) (p : Position) (line : Text) : Bool :=
  r.file.text.line? p.line != some line

/-- The byte offset of a position. Columns behind a line count for its end, lines behind the text for
the end of the text. -/
def offsetNear (r : CheckResult) (p : Position) : Nat :=
  let text := r.file.text
  match text.offsetOf? p with
  | some offset => offset
  | none =>
    match text.lineStart? p.line, text.line? p.line with
    | some start, some line => start + line.byteSize
    | _, _ => text.byteSize

/-- The text of a line as it was checked; empty if there is no such line. -/
def lineText (r : CheckResult) (line : Nat) : Text := (r.file.text.line? line).getD []

/-- The class of the token at a position of the checked text. -/
def tokenClassAt (r : CheckResult) (p : Position) : TokenClass := r.file.text.classAtPosition p

end CheckResult
end ScriptAnalyzer

import ScriptAnalyzer.Text.Alphanumeric
import ScriptAnalyzer.Text.CodePoints
import ScriptAnalyzer.Text.Split

/-!
Names around a column of a line, read off the line itself.
-/

namespace ScriptAnalyzer

def isNameChar (c : Char) : Bool := Text.isAlphanumeric c || c == '_' || c == '\''

/-- The end of the text that can belong to a dotted name. -/
def dottedEnd (text : List Char) : List Char :=
  (text.reverse.takeWhile fun c => isNameChar c || c == '.').reverse

/-- The segments between dots, as far as they are not empty. -/
def segmentsOf (text : List Char) : List String :=
  ((Text.splitOn '.' text).filter (· ≠ [])).map String.ofList

/-- The dotted name that ends with the name under the column. -/
def namePathAt (line : List Char) (column : Nat) : List String :=
  segmentsOf (dottedEnd (line.take column) ++ (line.drop column).takeWhile isNameChar)

/-- What is typed in front of the column: the qualifying path, and the start of a name. -/
def completionPathAt (line : List Char) (column : Nat) : List String × List Char :=
  let pieces := Text.splitOn '.' (dottedEnd (line.take column))
  ((pieces.dropLast.filter (· ≠ [])).map String.ofList, pieces.getLast?.getD [])

/-- What a scan of a line is in the middle of. -/
inductive ScanMode where
  | code
  | string
  | escape
deriving DecidableEq, Repr

/-- A parenthesis that is open, and the number of commas behind it. -/
structure OpenParen where
  column : Nat
  commas : Nat
deriving DecidableEq, Repr

/-- The parentheses left open at the end of a text that starts at `column`, innermost first. Those inside
string literals do not count. -/
def openParens (opened : List OpenParen) : ScanMode → (column : Nat) → List Char → List OpenParen
  | _, _, [] => opened
  | .escape, column, _ :: cs => openParens opened .string (column + 1) cs
  | .string, column, c :: cs =>
    let mode := if c = '\\' then .escape else if c = '"' then .code else .string
    openParens opened mode (column + 1) cs
  | .code, column, c :: cs =>
    match c, opened with
    | '"', _ => openParens opened .string (column + 1) cs
    | '(', _ => openParens (⟨column, 0⟩ :: opened) .code (column + 1) cs
    | ')', _ => openParens opened.tail .code (column + 1) cs
    | ',', p :: outer => openParens ({ p with commas := p.commas + 1 } :: outer) .code (column + 1) cs
    | _, _ => openParens opened .code (column + 1) cs

/-- The call around a column: the name in front of its parenthesis, and the number of the argument that
the column lies in. -/
def callAt? (line : List Char) (column : Nat) : Option (List String × Nat) :=
  match openParens [] .code 0 (line.take column) with
  | [] => none
  | p :: _ =>
    let before := Text.trimEnd (line.take p.column)
    some (namePathAt before before.length, p.commas)

end ScriptAnalyzer

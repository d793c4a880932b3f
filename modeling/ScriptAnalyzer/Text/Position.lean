import ScriptAnalyzer.Text.Span

/-!
Lines and columns of a text, and their correspondence with byte offsets.

Lines end with a line feed. A column counts characters. `positionOf` walks over the characters that
fit into the given number of bytes, so an offset inside a character counts for the character's start
and one past the text for its end. `offsetOf?` is its inverse where the position exists; a carriage
return that ends a line belongs to no column.
-/

namespace ScriptAnalyzer

/-- A line and a column, both counted from zero. -/
structure Position where
  line : Nat
  character : Nat
deriving DecidableEq, Repr, Inhabited

namespace Position

def le (p q : Position) : Bool :=
  p.line < q.line || (p.line == q.line && p.character ≤ q.character)

/-- Writes the position as `line:column`, both counted from one. -/
def render (p : Position) : String := toString (p.line + 1) ++ ":" ++ toString (p.character + 1)

/-- The position behind the character `c` at `p`. -/
def next (p : Position) (c : Char) : Position :=
  if c = '\n' then ⟨p.line + 1, 0⟩ else ⟨p.line, p.character + 1⟩

end Position

structure Range where
  start : Position
  stop : Position
deriving DecidableEq, Repr, Inhabited

/-- Whether a position lies in the range, its end included. -/
def Range.contains (r : Range) (p : Position) : Bool := r.start.le p && p.le r.stop

namespace Text

/-- The position behind the characters that fit into the first `offset` bytes, from `p` on. -/
def positionFrom (p : Position) : Nat → Text → Position
  | _, [] => p
  | offset, c :: cs =>
    if c.utf8Size ≤ offset then positionFrom (p.next c) (offset - c.utf8Size) cs else p

def positionOf (text : Text) (offset : Nat) : Position := positionFrom ⟨0, 0⟩ offset text

def rangeOf (text : Text) (span : Span) : Range := ⟨text.positionOf span.start, text.positionOf span.stop⟩

/-- The number of lines; an empty text has one. -/
def lineCount (text : Text) : Nat := text.count '\n' + 1

/-- The byte offset of line `n` and the text from there on, counted from `offset`. -/
def lineFrom? (offset : Nat) : Nat → Text → Option (Nat × Text)
  | 0, cs => some (offset, cs)
  | _ + 1, [] => none
  | n + 1, c :: cs => lineFrom? (offset + c.utf8Size) (if c = '\n' then n else n + 1) cs

def lineStart? (text : Text) (line : Nat) : Option Nat := (lineFrom? 0 line text).map (·.1)

/-- The characters in front of the first line terminator. -/
def firstLine : Text → Text
  | [] => []
  | ['\r'] => []
  | '\r' :: '\n' :: _ => []
  | '\n' :: _ => []
  | c :: cs => c :: firstLine cs

def line? (text : Text) (line : Nat) : Option Text := (lineFrom? 0 line text).map fun l => firstLine l.2

def offsetOf? (text : Text) (p : Position) : Option Nat :=
  match lineFrom? 0 p.line text with
  | none => none
  | some (start, rest) =>
    let line := firstLine rest
    if p.character ≤ line.length then some (start + byteSize (line.take p.character)) else none

end Text

end ScriptAnalyzer

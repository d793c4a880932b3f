/-!
Spans of a source text, counted in bytes of its UTF-8 form.

A text is a list of characters; a byte offset addresses the boundary in front of the character that
starts there. `dropBytes?` and `takeBytes?` cut a text at a boundary and refuse every other offset.
-/

namespace ScriptAnalyzer

abbrev Text := List Char

namespace Text

/-- The number of bytes of the UTF-8 form. -/
def byteSize : Text → Nat
  | [] => 0
  | c :: cs => c.utf8Size + byteSize cs

/-- The text behind the first `n` bytes, if `n` is a character boundary. -/
def dropBytes? : Nat → Text → Option Text
  | 0, cs => some cs
  | _ + 1, [] => none
  | n + 1, c :: cs =>
    if c.utf8Size ≤ n + 1 then dropBytes? (n + 1 - c.utf8Size) cs else none

/-- The first `n` bytes of the text, if `n` is a character boundary. -/
def takeBytes? : Nat → Text → Option Text
  | 0, _ => some []
  | _ + 1, [] => none
  | n + 1, c :: cs =>
    if c.utf8Size ≤ n + 1 then (takeBytes? (n + 1 - c.utf8Size) cs).map (c :: ·) else none

/-- Whether a byte offset falls between two characters or on an end of the text. -/
def isBoundary (text : Text) (offset : Nat) : Bool := (dropBytes? offset text).isSome

end Text

structure Span where
  start : Nat
  stop : Nat
deriving DecidableEq, Repr, Inhabited

namespace Span

def empty (offset : Nat) : Span := ⟨offset, offset⟩

def size (s : Span) : Nat := s.stop - s.start

def isEmpty (s : Span) : Bool := s.start == s.stop

def merge (s t : Span) : Span := ⟨min s.start t.start, max s.stop t.stop⟩

/-- Whether `offset` lies in the span, its end included: a cursor right behind a name still
addresses the name. -/
def touches (s : Span) (offset : Nat) : Bool := s.start ≤ offset && offset ≤ s.stop

def contains (s t : Span) : Bool := s.start ≤ t.start && t.stop ≤ s.stop

def before (s t : Span) : Bool := s.start < t.start || (s.start == t.start && s.stop < t.stop)

/-- The covered characters, if both ends are boundaries of the text in order. -/
def slice? (s : Span) (text : Text) : Option Text :=
  if s.start ≤ s.stop then
    (text.dropBytes? s.start).bind (Text.takeBytes? (s.stop - s.start))
  else none

/-- The covered text, empty if the span does not cut the text at boundaries. -/
def text (s : Span) (source : Text) : String := String.ofList ((s.slice? source).getD [])

def render (s : Span) : String := toString s.start ++ ".." ++ toString s.stop

end Span

end ScriptAnalyzer

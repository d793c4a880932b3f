import ScriptAnalyzer.Text.Span

/-!
The contents of quoted literals.

A backslash takes the next character: `n`, `t`, `r` and `0` stand for control characters, any other
character for itself. A backslash at the very end stands for itself.
-/

namespace ScriptAnalyzer.Literal

/-- The character that an escape letter stands for. -/
def escaped : Char → Char
  | 'n' => '\n'
  | 't' => '\t'
  | 'r' => '\r'
  | '0' => '\x00'
  | c => c

def decode : Text → Text
  | [] => []
  | ['\\'] => ['\\']
  | '\\' :: c :: cs => escaped c :: decode cs
  | c :: cs => c :: decode cs

/-- The body of a literal: its text without the opening quote and, if it ends with one, without the
closing quote. -/
def body : Text → Text
  | [] => []
  | quote :: cs => if cs.getLast? = some quote then cs.dropLast else cs

/-- The value of a string or character literal. -/
def unquote (raw : Text) : Text := decode (body raw)

end ScriptAnalyzer.Literal

import ScriptAnalyzer.Text.Position

/-!
Diagnostics: messages with a code and a severity at a place of the text.
-/

namespace ScriptAnalyzer

inductive Severity where
  | error
  | warning
  | info
deriving DecidableEq, Repr

def Severity.render : Severity → String
  | .error => "error"
  | .warning => "warning"
  | .info => "info"

structure Diagnostic where
  span : Span
  range : Range
  severity : Severity
  code : String
  message : String
deriving DecidableEq, Repr

namespace Diagnostic

/-- A diagnostic at a span of the text. -/
def located (text : Text) (code : String) (severity : Severity) (message : String) (span : Span) :
    Diagnostic :=
  { span, range := text.rangeOf span, severity, code, message }

def isError (d : Diagnostic) : Bool := d.severity == .error

def render (d : Diagnostic) : String :=
  d.range.start.render ++ " " ++ d.severity.render ++ "[" ++ d.code ++ "]: " ++ d.message

end Diagnostic

end ScriptAnalyzer

import ScriptAnalyzer.Editor.Utf16
import ScriptAnalyzer.Typing.Check

/-!
Diagnostics as they are published to an editor.
-/

namespace ScriptAnalyzer

structure PublishedDiagnostic where
  range : UnitRange
  severity : Severity
  code : String
  message : String
deriving DecidableEq, Repr

namespace PublishedDiagnostic

def ofDiagnostic (text : Text) (d : Diagnostic) : PublishedDiagnostic :=
  ⟨d.range.inUnits text, d.severity, d.code, d.message⟩

/-- Editors fade the code that the diagnostic marks as unused. -/
def isFaded (d : PublishedDiagnostic) : Bool := d.code = "W1182"

def severityNumber : Severity → Nat
  | .error => 1
  | .warning => 2
  | .info => 3

def toJson (d : PublishedDiagnostic) : Json :=
  .sparse [("range", some d.range.toJson), ("severity", some (.nat (severityNumber d.severity))),
    ("code", some (.string d.code)), ("source", some (.string "glint")),
    ("message", some (.string d.message)),
    ("tags", if d.isFaded then some (.array [.nat 1]) else none)]

end PublishedDiagnostic

def CheckResult.published (r : CheckResult) : List PublishedDiagnostic :=
  r.allDiagnostics.map (.ofDiagnostic r.file.text)

end ScriptAnalyzer

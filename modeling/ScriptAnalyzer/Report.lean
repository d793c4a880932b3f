import ScriptAnalyzer.Json.Value
import ScriptAnalyzer.Typing.Check

/-!
Reports: the diagnostics of checked files with their counts, as JSON and as a line of summary.
-/

namespace ScriptAnalyzer

structure Report where
  /-- The diagnostics and the files that they belong to. -/
  entries : List (Path × Diagnostic)

namespace Report

def ofFiles (files : List (Path × CheckResult)) : Report :=
  ⟨files.flatMap fun f => f.2.allDiagnostics.map (f.1, ·)⟩

def count (r : Report) (severity : Severity) : Nat :=
  r.entries.countP (·.2.severity = severity)

def errorCount (r : Report) : Nat := r.count .error
def warningCount (r : Report) : Nat := r.count .warning

/-- A diagnostic with its lines and columns counted from one. -/
def entryJson (e : Path × Diagnostic) : Json :=
  let range := e.2.range
  .object [("file", .string e.1.text),
    ("line", .nat (range.start.line + 1)), ("column", .nat (range.start.character + 1)),
    ("end_line", .nat (range.stop.line + 1)), ("end_column", .nat (range.stop.character + 1)),
    ("severity", .string e.2.severity.render), ("code", .string e.2.code),
    ("message", .string e.2.message)]

def toJson (r : Report) : Json :=
  .object [("diagnostics", .array (r.entries.map entryJson)), ("error_count", .nat r.errorCount),
    ("warning_count", .nat r.warningCount)]

/-- The mark in front of a summary, with the terminal's code for its colour. -/
structure Mark where
  sign : Char
  colour : String

namespace Mark

def passed : Mark := ⟨'✓', "32"⟩
def failed : Mark := ⟨'✗', "31"⟩
def warned : Mark := ⟨'⚠', "33"⟩

def render (m : Mark) (coloured : Bool) : String :=
  if coloured then "\x1b[" ++ m.colour ++ "m" ++ m.sign.toString ++ "\x1b[0m" else m.sign.toString

end Mark

/-- A number of things, named by their singular. -/
def counted (n : Nat) (thing : String) : String :=
  toString n ++ " " ++ thing ++ if n = 1 then "" else "s"

def summary (r : Report) (coloured : Bool) : String :=
  let errors := counted r.errorCount "error"
  let warnings := counted r.warningCount "warning"
  let (mark, text) :=
    if r.errorCount = 0 && r.warningCount = 0 then (Mark.passed, "No errors found")
    else if r.errorCount = 0 then (Mark.warned, warnings)
    else if r.warningCount = 0 then (Mark.failed, errors)
    else (Mark.failed, errors ++ ", " ++ warnings)
  mark.render coloured ++ " " ++ text ++ "\n"

end Report
end ScriptAnalyzer

import ScriptAnalyzer.Command.Arguments
import ScriptAnalyzer.Project.Context

/-!
What all commands share: the options about the project, reading files, and how a command ends.
-/

namespace ScriptAnalyzer
namespace Command

def projectFlags : List Flag :=
  [{ long := "reference", short := some 'r', takesValue := true, repeatable := true },
    { long := "define", takesValue := true, repeatable := true },
    { long := "nowarn", takesValue := true, repeatable := true },
    { long := "warn-as-error" }]

def verboseFlag : Flag := { long := "verbose", short := some 'v' }

def Arguments.projectOptions (a : Arguments) : ProjectOptions :=
  { references := a.valuesOf "reference", defines := a.valuesOf "define"
    nowarn := a.valuesOf "nowarn", warningsAsErrors := a.has "warn-as-error" }

inductive ReadError where
  | notFound
  | isDirectory
  | notUnicode
  | other (message : String)
deriving DecidableEq, Repr

def ReadError.message : ReadError → String
  | notFound => "No such file or directory (os error 2)"
  | isDirectory => "Is a directory (os error 21)"
  | notUnicode => "stream did not contain valid UTF-8"
  | other message => message

abbrev FileReader := String → Except ReadError Text

/-- How a command ends, and what it prints. -/
structure Outcome where
  exitCode : Nat
  stdout : String := ""
  stderr : String := ""
deriving DecidableEq, Repr

namespace Outcome

def failure (message : String) : Outcome := { exitCode := 2, stderr := "error: " ++ message ++ "\n" }

def ofUsage (e : UsageError) : Outcome := failure e.message

def ofRead (name : String) (e : ReadError) : Outcome :=
  failure ("failed to read " ++ name ++ ": " ++ e.message)

end Outcome
end Command
end ScriptAnalyzer

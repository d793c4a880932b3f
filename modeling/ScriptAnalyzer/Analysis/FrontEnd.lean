import ScriptAnalyzer.Typing.Check

/-!
The front end behind an analysis: it reads a text and then checks it, and may fail at both.
-/

namespace ScriptAnalyzer

/-- Why an analysis gave no result. Syntax and type errors are results. -/
inductive Failure where
  /-- The front end broke down, with a message if it left one. -/
  | crashed (message : Option String)
  | refused (message : String)
deriving DecidableEq, Repr

def Failure.message : Failure → String
  | crashed message => "checker panicked: " ++ message.getD "unknown panic payload"
  | refused message => "checker failed: " ++ message

abbrev Outcome (ρ : Type) := Except Failure ρ

structure FrontEnd (ρ : Type) where
  /-- How reading a text fails, if it does. -/
  readFailure? : Text → Option Failure
  check : Text → Outcome ρ

namespace FrontEnd

variable {ρ : Type}

def analyze (e : FrontEnd ρ) (text : Text) : Outcome ρ :=
  match e.readFailure? text with
  | some failure => .error failure
  | none => e.check text

/-- The front end of a file of a project. It does not fail. -/
def ofProject (options : ProjectOptions) (path : Path) : FrontEnd CheckResult :=
  { readFailure? := fun _ => none, check := fun text => .ok (checkText path text options none) }

end FrontEnd
end ScriptAnalyzer

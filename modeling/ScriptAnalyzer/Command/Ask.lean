import ScriptAnalyzer.Command.Project
import ScriptAnalyzer.Query.Answer

/-!
The command that answers a query about a place of a file. Its lines and columns are counted from one.
-/

namespace ScriptAnalyzer
namespace Command

structure Ask where
  file : String
  project : ProjectOptions
  position : Position
  query : Query

namespace Ask

def queryNames : List String := ["tooltip", "complete", "overloads"]

/-- The decimal number that a word stands for. It can have a sign. -/
def number? (word : String) : Option Int :=
  let (isNegative, digits) := match word.toList with
    | '+' :: digits => (false, digits)
    | '-' :: digits => (true, digits)
    | digits => (false, digits)
  if !digits.isEmpty && digits.all Char.isDigit then
    let n : Int := Binary64.digitsValue digits
    some (if isNegative then -n else n)
  else none

/-- A line or column: a number of 32 bits. -/
def coordinate (name word : String) : Except UsageError Nat :=
  match number? word with
  | some n => if 0 ≤ n ∧ n < 0x100000000 then .ok n.toNat else .error (.invalidValue name word)
  | none => .error (.invalidValue name word)

/-- Reads the query from the words behind its name. -/
def readQuery (name : String) (words : List String) : Except UsageError (Position × Query) := do
  let flags := if name = "overloads" then [verboseFlag, { long := "name", takesValue := true }]
    else [verboseFlag]
  let a ← Arguments.read flags (fun _ => false) words
  match a.positional with
  | [] => throw (.missingArgument "LINE")
  | [_] => throw (.missingArgument "COLUMN")
  | [line, column] =>
    let position : Position := ⟨(← coordinate "LINE" line) - 1, (← coordinate "COLUMN" column) - 1⟩
    let query : Query := match name with
      | "tooltip" => .tooltip
      | "complete" => .complete
      | _ => .overloads (a.valuesOf "name").head?
    return (position, query)
  | _ :: _ :: word :: _ => throw (.unexpectedArgument word)

def ofWords (words : List String) : Except UsageError Ask := do
  let a ← Arguments.read (verboseFlag :: projectFlags) (queryNames.contains ·) words
  match a.positional, a.rest with
  | _ :: word :: _, _ => throw (.unexpectedArgument word)
  | [], _ => throw (.missingArgument "FILE")
  | [_], [] => throw (.missingArgument "COMMAND")
  | [file], name :: rest =>
    let file ← fileName file
    let (position, query) ← readQuery name rest
    return { file, project := a.projectOptions, position, query }

def run (q : Ask) (read : FileReader) : Outcome :=
  match read q.file with
  | .error e => .ofRead q.file e
  | .ok text =>
    let r := checkText ⟨q.file⟩ text q.project none
    { exitCode := 0, stdout := (r.answer q.position q.query).pretty ++ "\n" }

end Ask

def ask (read : FileReader) (words : List String) : Outcome :=
  match Ask.ofWords words with
  | .error e => .ofUsage e
  | .ok q => q.run read

end Command
end ScriptAnalyzer

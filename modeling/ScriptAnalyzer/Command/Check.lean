import ScriptAnalyzer.Command.Project
import ScriptAnalyzer.Report

/-!
The command that checks files and reports their diagnostics. It ends with the code 1 if there are
errors, and with 2 if it cannot do its work.
-/

namespace ScriptAnalyzer
namespace Command

inductive Format where
  | text
  | json
deriving DecidableEq, Repr

def Format.read (name : String) : Except UsageError Format :=
  match name with
  | "text" => .ok .text
  | "json" => .ok .json
  | _ => .error (.invalidValue "--format" name)

structure Check where
  files : List String
  project : ProjectOptions
  format : Format
  verbose : Bool
  quiet : Bool

namespace Check

def flags : List Flag :=
  [{ long := "format", short := some 'f', takesValue := true }, verboseFlag,
    { long := "quiet", short := some 'q' }] ++ projectFlags

def ofWords (words : List String) : Except UsageError Check := do
  let a ← Arguments.read flags (fun _ => false) words
  if a.positional.isEmpty then throw (.missingArgument "FILE")
  let format ← (a.valuesOf "format").getLast?.elim (.ok .text) Format.read
  return { files := ← a.positional.mapM fileName, project := a.projectOptions, format
           verbose := a.has "verbose", quiet := a.has "quiet" }

def lines (r : Report) : String :=
  String.join (r.entries.map fun e => e.1.text ++ ":" ++ e.2.render ++ "\n")

def print (c : Check) (r : Report) : String :=
  match c.format with
  | .json => r.toJson.pretty ++ "\n"
  | .text => if c.quiet then "" else lines r ++ r.summary false

/-- The files with their contents, up to the first that cannot be read. -/
def readAll (read : FileReader) : List String → Except Outcome (List (String × Text))
  | [] => .ok []
  | name :: names =>
    match read name with
    | .error e => .error (.ofRead name e)
    | .ok text => (readAll read names).map ((name, text) :: ·)

def run (c : Check) (read : FileReader) : Outcome :=
  match readAll read c.files with
  | .error o => o
  | .ok contents =>
    let r := Report.ofFiles (contents.map fun f =>
      (⟨f.1⟩, checkText ⟨f.1⟩ f.2 c.project none))
    { exitCode := if r.errorCount = 0 then 0 else 1, stdout := c.print r
      stderr := if c.verbose && !c.quiet then
        "Checking " ++ toString c.files.length ++ " file(s)...\n" else "" }

end Check

def check (read : FileReader) (words : List String) : Outcome :=
  match Check.ofWords words with
  | .error e => .ofUsage e
  | .ok c => c.run read

end Command
end ScriptAnalyzer

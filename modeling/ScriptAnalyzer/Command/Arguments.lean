/-!
Arguments of a command line: options, and what stands between them.

An option has a long form, `--name value` or `--name=value`, and may have a short one, `-n value` or
`-nvalue`. Short forms of options without a value can share a dash. Behind `--` nothing is an option.
-/

namespace ScriptAnalyzer
namespace Command

structure Flag where
  long : String
  short : Option Char := none
  takesValue : Bool := false
  repeatable : Bool := false
deriving DecidableEq, Repr

inductive UsageError where
  | unknownOption (text : String)
  | missingValue (option : String)
  | unwantedValue (option : String)
  | repeated (option : String)
  | invalidValue (name value : String)
  | missingArgument (name : String)
  | unexpectedArgument (text : String)
deriving DecidableEq, Repr

def UsageError.message : UsageError → String
  | unknownOption text => "unexpected argument '" ++ text ++ "' found"
  | missingValue option => "a value is required for '--" ++ option ++ "' but none was supplied"
  | unwantedValue option => "unexpected value for '--" ++ option ++ "' found; no more were expected"
  | repeated option => "the argument '--" ++ option ++ "' cannot be used multiple times"
  | invalidValue name value => "invalid value '" ++ value ++ "' for '" ++ name ++ "'"
  | missingArgument name => "the required argument <" ++ name ++ "> was not provided"
  | unexpectedArgument text => "unexpected argument '" ++ text ++ "' found"

structure Arguments where
  /-- The options in their order, with their values; those without a value have an empty one. -/
  options : List (Flag × String) := []
  positional : List String := []
  /-- What follows the word that ended the reading, that word included. -/
  rest : List String := []

namespace Arguments

def valuesOf (a : Arguments) (long : String) : List String :=
  (a.options.filter (·.1.long = long)).map (·.2)

def has (a : Arguments) (long : String) : Bool := a.options.any (·.1.long = long)

def addOption (a : Arguments) (f : Flag) (value : String) : Except UsageError Arguments :=
  if !f.repeatable && a.has f.long then .error (.repeated f.long)
  else .ok { a with options := a.options ++ [(f, value)] }

/-- Adds the options in a word behind one dash. An option that takes a value takes the rest of the
word; if nothing is left, it is returned to get the next word. -/
def addShort (flags : List Flag) : List Char → Arguments → Except UsageError (Arguments × Option Flag)
  | [], a => .ok (a, none)
  | c :: cs, a =>
    match flags.find? (·.short = some c) with
    | none => .error (.unknownOption ("-" ++ c.toString))
    | some f =>
      if f.takesValue then
        match cs with
        | [] => .ok (a, some f)
        | '=' :: value => (a.addOption f (String.ofList value)).map (·, none)
        | value => (a.addOption f (String.ofList value)).map (·, none)
      else do addShort flags cs (← a.addOption f "")

/-- Adds the option in a word behind two dashes. -/
def addLong (flags : List Flag) (word : List Char) (a : Arguments) :
    Except UsageError (Arguments × Option Flag) :=
  let name := word.takeWhile (· ≠ '=')
  match flags.find? (·.long.toList = name), word.drop name.length with
  | none, _ => .error (.unknownOption ("--" ++ String.ofList name))
  | some f, [] => if f.takesValue then .ok (a, some f) else (a.addOption f "").map (·, none)
  | some f, _ :: value =>
    if f.takesValue then (a.addOption f (String.ofList value)).map (·, none)
    else .error (.unwantedValue f.long)

/-- What the reading is in the middle of. -/
inductive Mode where
  | words
  | value (f : Flag)
  | positional

/-- Reads words up to the first word that is none of an option and satisfies `isEnd`. -/
def readWords (flags : List Flag) (isEnd : String → Bool) :
    Mode → List String → Arguments → Except UsageError Arguments
  | .value f, [], _ => .error (.missingValue f.long)
  | _, [], a => .ok a
  | .positional, word :: words, a =>
    readWords flags isEnd .positional words { a with positional := a.positional ++ [word] }
  | mode, word :: words, a =>
    let next (r : Arguments × Option Flag) :=
      readWords flags isEnd (r.2.elim .words .value) words r.1
    match mode, word.toList with
    | .value f, '-' :: _ :: _ => .error (.missingValue f.long)
    | .value f, _ => do readWords flags isEnd .words words (← a.addOption f word)
    | _, ['-', '-'] => readWords flags isEnd .positional words a
    | _, '-' :: '-' :: name => do next (← a.addLong flags name)
    | _, '-' :: c :: cs => do next (← addShort flags (c :: cs) a)
    | _, _ =>
      if isEnd word then .ok { a with rest := word :: words }
      else readWords flags isEnd .words words { a with positional := a.positional ++ [word] }

def read (flags : List Flag) (isEnd : String → Bool) (words : List String) :
    Except UsageError Arguments :=
  readWords flags isEnd .words words {}

end Arguments

def fileName (word : String) : Except UsageError String :=
  if word.isEmpty then .error (.missingArgument "FILE") else .ok word

end Command
end ScriptAnalyzer

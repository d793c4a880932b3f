import ScriptAnalyzer.Project.Directive
import ScriptAnalyzer.Project.SourceKind
import ScriptAnalyzer.Text.CodePoints

/-!
The compilation context of a file: what its directives and the options of the project say about the
libraries it refers to, its conditional symbols and its warnings.

Directives take effect in the order of the text. A directive inside a conditional region that is not
active has none, and one that cannot be applied is recorded as a problem.
-/

namespace ScriptAnalyzer

/-- A library, by its name or as a file. -/
inductive Reference where
  | library (name : String)
  | file (path : Path)
deriving Repr

namespace Reference

instance : BEq Reference where
  beq
    | library a, library b => a == b
    | file p, file q => p == q
    | _, _ => false

/-- Arguments with a slash in them or the extension `dll` are files; all others name a library. -/
def isFile (raw : Text) : Bool :=
  raw.contains '/' || raw.contains '\\' ||
    (Path.extension? ⟨String.ofList raw⟩).elim false fun e => e.map Char.toLower == ['d', 'l', 'l']

/-- The reference that an argument means, seen from the directory `base`. -/
def ofArgument (base : Path) (argument : Text) : Reference :=
  let raw := Text.trim argument
  if isFile raw then file (base.join ⟨String.ofList raw⟩) else library (String.ofList raw)

/-- The name of the library: a file has it as its stem. -/
def libraryName? : Reference → Option String
  | library name => some name
  | file path => path.fileStem?.map String.ofList

def render : Reference → String
  | library name => name
  | file path => path.text

end Reference

namespace DirectiveProblem

inductive Cause where
  | unknown
  | noReference
  | noFiles
  | noWarning
  | invalidWarning (argument : Text)
  | noSymbol
deriving DecidableEq, Repr

def Cause.kind : Cause → String
  | unknown => "unknown_directive"
  | noReference | noFiles | noWarning | noSymbol => "malformed_arguments"
  | invalidWarning _ => "invalid_warning_code"

def Cause.message : Cause → String
  | unknown => "unrecognized directive"
  | noReference => "expected one quoted library name or path"
  | noFiles => "expected quoted file paths"
  | noWarning => "expected at least one warning number"
  | invalidWarning argument => "'" ++ String.ofList argument ++ "' is not a warning number"
  | noSymbol => "expected one symbol name"

end DirectiveProblem

structure DirectiveProblem where
  cause : DirectiveProblem.Cause
  /-- The name of the directive, its hash included. -/
  directive : String
  span : Span
deriving DecidableEq, Repr

def DirectiveProblem.render (p : DirectiveProblem) : String := p.directive ++ ": " ++ p.cause.message

/-- What a project says about all of its files. -/
structure ProjectOptions where
  references : List String := []
  defines : List String := []
  nowarn : List String := []
  warningsAsErrors : Bool := false
  /-- The kind of the file, if not the one of its name. -/
  kind : Option SourceKind := none
  /-- Where relative references start, if not in the directory of the file. -/
  baseDir : Option Path := none

/-- What is known about a file before it is read. Every list is without repetitions. -/
structure Context where
  path : Path
  kind : SourceKind
  references : List Reference := []
  defines : List String := []
  /-- The codes of warnings that are not reported, each a `W` with four digits. -/
  nowarn : List String := []
  warningsAsErrors : Bool
  loads : List Path := []
  problems : List DirectiveProblem := []

/-- Adds `a` at the end, unless it is there. -/
def addNew {α : Type} [BEq α] (as : List α) (a : α) : List α := if as.contains a then as else as ++ [a]

/-- A warning code in its full form: `20`, `0020` and `w0020` all mean `W0020`. -/
def warningCode? (raw : Text) : Option String :=
  let digits := match Text.trim raw with
    | 'W' :: digits | 'w' :: digits => digits
    | digits => digits
  if digits.isEmpty || 4 < digits.length || !digits.all Token.isDigit then none
  else some (String.ofList ('W' :: (List.replicate (4 - digits.length) '0' ++ digits)))

/-- Whether a text can be a conditional symbol. -/
def isSymbolName : Text → Bool
  | [] => false
  | c :: cs => Token.startsName c && cs.all Token.continuesTypeVar

namespace Context

def isScript (c : Context) : Bool := c.kind == .script

def suppresses (c : Context) (code : String) : Bool := c.nowarn.contains code

def libraryNames (c : Context) : List String := c.references.filterMap Reference.libraryName?

def addProblem (cause : DirectiveProblem.Cause) (directive : DirectiveLine) (span : Span) (c : Context) :
    Context :=
  { c with problems := c.problems ++ [{ cause, directive := "#" ++ directive.name, span }] }

def addReference (reference : Reference) (c : Context) : Context :=
  { c with references := addNew c.references reference }

def applyReference (base : Path) (d : DirectiveLine) (c : Context) : Context :=
  match d.args with
  | [arg] =>
    if arg.quoted && !(Text.trim arg.text).isEmpty then c.addReference (.ofArgument base arg.text)
    else c.addProblem .noReference d d.span
  | _ => c.addProblem .noReference d d.span

def applyLoad (base : Path) (d : DirectiveLine) (c : Context) : Context :=
  if d.args.isEmpty || d.args.any (!·.quoted) then c.addProblem .noFiles d d.span
  else
    { c with loads := d.args.foldl (fun ps arg => addNew ps (base.join ⟨String.ofList arg.text⟩)) c.loads }

def applyNowarn (d : DirectiveLine) (c : Context) : Context :=
  if d.args.isEmpty then c.addProblem .noWarning d d.span
  else d.args.foldl (fun c arg =>
    match warningCode? arg.text with
    | some code => { c with nowarn := addNew c.nowarn code }
    | none => c.addProblem (.invalidWarning arg.text) d arg.span) c

def applyDefine (d : DirectiveLine) (c : Context) : Context :=
  match d.args with
  | [arg] =>
    if !arg.quoted && isSymbolName arg.text then
      { c with defines := addNew c.defines (String.ofList arg.text) }
    else c.addProblem .noSymbol d d.span
  | _ => c.addProblem .noSymbol d d.span

/-- The effect of a directive. In module files the parser refuses `#r` and `#load`, and they have no
effect. -/
def apply (base : Path) (d : DirectiveLine) (c : Context) : Context :=
  match d.name with
  | "r" => if c.kind = .module then c else c.applyReference base d
  | "load" => if c.kind = .module then c else c.applyLoad base d
  | "nowarn" => c.applyNowarn d
  | "define" => c.applyDefine d
  | _ => c.addProblem .unknown d d.span

/-- One directive line seen with the conditional regions around it, innermost first: for each, whether
its current branch is active. -/
def step (base : Path) : Context × List Bool → DirectiveLine → Context × List Bool
  | (c, regions), d =>
    match d.name with
    | "if" =>
      (c, (d.args.head?.elim false fun arg => c.defines.contains (String.ofList arg.text)) :: regions)
    | "else" =>
      (c, match regions with
        | active :: outer => (!active) :: outer
        | [] => [])
    | "endif" => (c, regions.tail)
    | _ => (if regions.all id then c.apply base d else c, regions)

def implicitReferences : List Reference := [.library "Core", .library "System"]

/-- Where the relative references of a file start. -/
def baseDir (path : Path) (options : ProjectOptions) : Path :=
  (options.baseDir.or path.parent?).getD ⟨""⟩

/-- The context of a file in front of its first directive. -/
def initial (path : Path) (options : ProjectOptions) : Context :=
  let base := baseDir path options
  { path
    kind := options.kind.getD (.ofPath path)
    references :=
      (options.references.map fun r => Reference.ofArgument base r.toList).foldl addNew implicitReferences
    defines := options.defines.foldl addNew []
    nowarn := (options.nowarn.filterMap fun code => warningCode? code.toList).foldl addNew []
    warningsAsErrors := options.warningsAsErrors }

def resolve (path : Path) (text : Text) (options : ProjectOptions) : Context :=
  ((DirectiveLine.all text).foldl (step (baseDir path options)) (initial path options, [])).1

end Context

end ScriptAnalyzer

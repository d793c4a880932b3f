import ScriptAnalyzer.Typing.Decl

/-!
The result of checking a file: its diagnostics, and what its places stand for. The types in it are
those at the end of the file.
-/

namespace ScriptAnalyzer

structure CheckResult where
  file : SyntaxFile
  context : Context
  /-- The declared symbols with their places, in the order of their declaration. -/
  symbols : List (Span × Symbol)
  /-- The type errors and warnings in the order of their places. -/
  diagnostics : List Diagnostic
  /-- The names in the order in which they were resolved. -/
  occurrences : List Occurrence
  bindings : List ScopeEntry
  /-- The opened entities and enclosing modules, the latest first. -/
  regions : List OpenRegion
  members : List MemberSite
  calls : List CallSite
  entities : Entities

namespace CheckerState

def binderSymbol (s : CheckerState) (b : Binder) : Symbol :=
  let t := s.store.zonk b.scheme.type
  match Checker.bindingSignature? t b.params with
  | some signature =>
    { name := b.name, kind := .function, signature := t.render, overloads := [signature]
      span := some b.span }
  | none => { name := b.name, kind := .value, signature := t.render, span := some b.span }

/-- The symbol of a target, if the target exists. -/
def targetSymbol? (s : CheckerState) : Target → Option Symbol
  | .binder index => s.binders[index]?.map s.binderSymbol
  | .fixed symbol => some symbol

def occurrence? (s : CheckerState) (m : Mention) : Option Occurrence :=
  (s.targetSymbol? m.target).map fun symbol => ⟨m.span, symbol, m.isDefinition⟩

def scopeEntry? (s : CheckerState) (visible : Span) (index : Nat) : Option ScopeEntry :=
  s.binders[index]?.map fun b => ⟨visible, s.binderSymbol b, s.store.zonk b.scheme.type⟩

def finalMember (s : CheckerState) (m : MemberSite) : MemberSite :=
  match m.receiver with
  | .value t => { m with receiver := .value (s.store.zonk t) }
  | .entity _ => m

/-- The result that the state at the end of a file holds. -/
def result (s : CheckerState) (file : SyntaxFile) (context : Context) (options : WarningOptions) :
    CheckResult :=
  { file, context
    symbols := s.records.declarations.reverse.filterMap fun d =>
      (s.targetSymbol? d.2).map (d.1, ·)
    diagnostics := options.diagnostics file.text s.records.errors.reverse
    occurrences := s.records.mentions.reverse.filterMap s.occurrence?
    bindings := s.records.visible.filterMap fun v => s.scopeEntry? v.1 v.2
    regions := s.records.regions
    members := s.records.members.reverse.map s.finalMember
    calls := s.records.calls.reverse
    entities := s.entities }

end CheckerState

/-- The options about warnings that a context gives. -/
def Context.warningOptions (c : Context) : WarningOptions :=
  { asErrors := c.warningsAsErrors, suppressed := c.nowarn }

def SyntaxFile.check (f : SyntaxFile) (context : Context) (options : WarningOptions) : CheckResult :=
  let start : CheckerState :=
    { entities := { libraries := Catalog.entitiesOf context.libraryNames }, options }
  let (_, s) := (Checker.file f context).run start
  s.result f context options

/-- Resolves, reads and checks a text. Without `options` the context decides about warnings. -/
def checkText (path : Path) (text : Text) (project : ProjectOptions)
    (options : Option WarningOptions) : CheckResult :=
  let context := Context.resolve path text project
  let file := SyntaxFile.parse path text context.kind context.defines
  file.check context (options.getD context.warningOptions)

namespace CheckResult

/-- Whether the text was read without syntax errors. -/
def isComplete (r : CheckResult) : Bool := !r.file.hasErrors

def status (r : CheckResult) : String := if r.isComplete then "complete" else "partial"

/-- All diagnostics in the order of their places. -/
def allDiagnostics (r : CheckResult) : List Diagnostic :=
  (r.file.diagnostics ++ r.diagnostics).mergeSort fun d e => d.span.start ≤ e.span.start

def hasErrors (r : CheckResult) : Bool := r.file.hasErrors || r.diagnostics.any (·.isError)

/-- The symbol that was declared at a place. -/
def declaredAt? (r : CheckResult) (site : Span) : Option Symbol :=
  (r.symbols.find? (·.1 == site)).map (·.2)

/-- The last declared symbol of this qualified or simple name. -/
def declared? (r : CheckResult) (name : String) : Option Symbol :=
  (r.symbols.reverse.find? fun d => d.2.name == name || d.2.simpleName == name).map (·.2)

end CheckResult

end ScriptAnalyzer

import ScriptAnalyzer.Project.Context
import ScriptAnalyzer.Syntax.File
import ScriptAnalyzer.Typing.Expr

/-!
Declarations. What a module declares and opens is out of scope behind it.
-/

namespace ScriptAnalyzer
namespace Checker

/-- Makes a binding a member of the enclosing module, in the place of an earlier one of its name. -/
def publish (binder : Binder) : Checker Unit := modify fun s =>
  let m : Member :=
    { name := binder.simpleName, kind := .value binder.scheme binder.params, span := some binder.span }
  { s with entities := s.entities.modifyDeclared (joinPath s.scope.modulePath) fun e =>
      { e with members := e.members.filter (·.name != m.name) ++ [m] } }

/-- Publishes the bindings with these numbers. Returns the names declared so far in the module. -/
def publishAll : List Nat → (declared : List String) → Checker (List String)
  | [], declared => return declared
  | index :: bound, declared => do
    match ← binderAt? index with
    | none => publishAll bound declared
    | some binder =>
      if (← get).options.shadowing && declared.contains binder.simpleName then
        report (.shadowed binder.simpleName) binder.span
      publish binder
      publishAll bound (binder.simpleName :: declared)

def checkModuleBinding (b : Binding) (stop : Nat) (declared : List String) : Checker (List String) := do
  modify fun s => { s with typeVars := [] }
  let bound ← checkBinding b.toLetHead b.body (fun e => valueOf b.body (expr b.body e)) stop true
  publishAll bound declared

def checkOpen (span : Span) (name : LongIdent) (stop : Nat) : Checker Unit := do
  match (← get).entity? name.segments with
  | none => report (.undefinedNamespace name.render) name.span
  | some path =>
    mentionEntity name path
    modify fun s => { s with scope.opens := path :: s.scope.opens }
    recordRegion ⟨span.stop, stop⟩ path

/-- Declares the namespaces around the module at `path` that are not there yet. -/
def declareNamespaces (path before : String) : List String → Checker Unit
  | [] => return
  | segment :: segments => do
    let inner := if before.isEmpty then segment else before ++ "." ++ segment
    if inner != path && !(← get).entities.contains inner then
      modify fun s => { s with entities := s.entities.declare { path := inner, kind := .nameSpace } }
    declareNamespaces path inner segments

def enterModule (path : String) (name : Option Span) (region : Span) : Checker Unit := do
  let segments := pathSegments path
  declareNamespaces path "" segments
  let entity : Entity := { path, kind := .module, span := name }
  if let some span := name then declare span (.fixed entity.symbol)
  modify fun s => { s with
    entities := s.entities.declare entity
    scope.modulePath := segments }
  recordRegion region path

/-- The fields of a record as members of its type. -/
def recordFields (path : String) : List (Ident × TypeExpr) → Checker (List Member)
  | [] => return []
  | (name, written) :: fields => do
    let t ← annotation written
    let m : Member := { name := name.text, kind := .field t, span := some name.span }
    declare name.span (.fixed (m.symbol path))
    let ms ← recordFields path fields
    return m :: ms

def checkType (name : Ident) (body : TypeBody) : Checker Unit := do
  modify fun s => { s with typeVars := [] }
  let path := (← get).qualified name.text
  match body with
  | .record fields =>
    modify fun s => { s with
      entities := s.entities.declare { path, kind := .type, span := some name.span } }
    let members ← recordFields path fields
    modify fun s => { s with entities := s.entities.modifyDeclared path ({ · with members }) }
    if let some entity := (← get).entities.find? path then declare name.span (.fixed entity.symbol)
  | .abbreviation written =>
    let t ← annotation written
    declare name.span (.fixed
      { name := path, kind := .type, signature := "type " ++ name.text ++ " = " ++ t.render
        span := some name.span })
    modify fun s => { s with abbreviations := (path, t) :: s.abbreviations }

mutual

/-- Checks a declaration of a module that ends at `stop`. Returns the names declared so far in the
module. -/
def decl (kind : SourceKind) (stop : Nat) : Decl → (declared : List String) → Checker (List String)
  | .binding _ b, declared => checkModuleBinding b stop declared
  | .open span name, declared => do
    checkOpen span name stop
    return declared
  | .module span name members, declared => do
    withScope do
      enterModule ((← get).qualified name.text) (some name.span) span
      decls kind span.stop members []
    return declared
  | .type _ name body, declared => do
    checkType name body
    return declared
  | .expr _ e, declared => do
    let t ← valueOf e (expr e none)
    if kind = .module then warnIgnored t e.span
    return declared
  | .directive _ _, declared | .error _, declared => return declared

def decls (kind : SourceKind) (stop : Nat) : List Decl → (declared : List String) → Checker Unit
  | [], _ => return
  | d :: ds, declared => do
    let declared ← decl kind stop d declared
    decls kind stop ds declared

end

/-- The argument of a `#r` that refers to the library `name`. -/
def referenceSite? (name : String) (file : SyntaxFile) : Option Span :=
  file.decls.findSome? fun
    | .directive _ d =>
      if d.name.text = "r" then
        (d.args.find? fun arg =>
          (Reference.ofArgument ⟨""⟩ arg.text.toList).libraryName? == some name).map (·.span)
      else none
    | _ => none

def checkReferences (file : SyntaxFile) (context : Context) : Checker Unit :=
  context.references.forM fun reference => do
    if let some name := reference.libraryName? then
      unless Catalog.hasLibrary name do
        report (.unresolvedReference reference.render) ((referenceSite? name file).getD (.empty 0))

def file (f : SyntaxFile) (context : Context) : Checker Unit := do
  checkReferences f context
  context.problems.forM fun p => report (.directiveNotApplied p.render) p.span
  let stop := f.text.byteSize
  if let some path := f.moduleName? then
    enterModule path (f.header.map LongIdent.span) ⟨0, stop⟩
  decls f.kind stop f.decls []

end Checker
end ScriptAnalyzer

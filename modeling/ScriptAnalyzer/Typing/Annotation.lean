import ScriptAnalyzer.Typing.Names

/-!
The types that annotations mean.
-/

namespace ScriptAnalyzer

def atomicTypes : List String := ["int", "float", "string", "bool", "char", "unit", "obj"]

namespace Checker

/-- The type that a written variable stands for in the current declaration. -/
def typeVariable (name : String) : Checker Ty := do
  match (← get).typeVars.lookup name with
  | some t => return t
  | none =>
    let t ← fresh
    modify fun s => { s with typeVars := (name, t) :: s.typeVars }
    return t

/-- The type abbreviated by a name inside one of the enclosing modules or outside all of them. -/
def abbreviation? (name : String) : Checker (Option Ty) := do
  let s ← get
  return (enclosingPaths s.scope.modulePath ++ [""]).findSome? fun owner =>
    s.abbreviations.lookup (qualify owner name)

/-- The type that the path of an entity means. -/
def entityType (name : LongIdent) : Checker Ty := do
  let s ← get
  let found := (s.entity? name.segments).bind s.entities.find?
  match found.filter (·.kind == .type) with
  | some entity =>
    mentionEntity name entity.path
    return .ofEntityPath entity.path
  | none =>
    report (.undefinedType name.render) name.span
    return .error

def namedType (name : LongIdent) : Checker Ty := do
  let written := name.render
  if name.tail.isEmpty && atomicTypes.contains written then return .atom written
  if name.tail.isEmpty && written == "list" then return .list (← fresh)
  match ← abbreviation? written with
  | some t => return t
  | none => entityType name

/-- The type of a constructor behind its argument. -/
def constructedType (argument : Ty) (ctor : LongIdent) : Checker Ty := do
  match ctor.segments with
  | ["list"] => return .list argument
  | ["array"] => return .array argument
  | _ =>
    report (.undefinedType ctor.render) ctor.span
    return .error

mutual

def annotation : TypeExpr → Checker Ty
  | .named _ name => namedType name
  | .var _ name => typeVariable name.text
  | .app _ argument ctor => do
    let t ← annotation argument
    constructedType t ctor
  | .array _ element => return .array (← annotation element)
  | .function _ domain codomain => do
    let param ← annotation domain
    let ret ← annotation codomain
    return .function param ret
  | .tuple _ items => return .tuple (← annotations items)
  | .error _ => return .error

def annotations : List TypeExpr → Checker (List Ty)
  | [] => return []
  | t :: ts => do
    let first ← annotation t
    let rest ← annotations ts
    return first :: rest

end

end Checker

end ScriptAnalyzer

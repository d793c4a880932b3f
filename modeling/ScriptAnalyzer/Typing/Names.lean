import ScriptAnalyzer.Text.Split
import ScriptAnalyzer.Typing.State

/-!
The meaning of names.

A name without qualification means the innermost binder of the name, else a member of an enclosing
module, an opened or an automatically opened entity, else an entity. The path of an entity is looked
for inside the enclosing modules, the opened entities, at the outermost level and inside the
automatically opened entities, in this order.
-/

namespace ScriptAnalyzer

inductive Meaning where
  | binder (index : Nat)
  | member (owner : String) (member : Member)
  | entity (path : String)

def joinPath (segments : List String) : String := ".".intercalate segments

def pathSegments (path : String) : List String := (Text.splitOn '.' path.toList).map String.ofList

/-- The paths of a module and the modules around it, innermost first. -/
def enclosingPaths (modulePath : List String) : List String :=
  (List.range modulePath.length).reverse.map fun n => joinPath (modulePath.take (n + 1))

namespace CheckerState

def binder? (s : CheckerState) (name : String) : Option Nat :=
  s.scope.binders.find? fun i => s.binders[i]?.any (·.simpleName == name)

def containers (s : CheckerState) : List String :=
  enclosingPaths s.scope.modulePath ++ s.scope.opens ++ s.entities.autoOpened

/-- The entities inside which the path of an entity is looked for. -/
def searchPaths (s : CheckerState) : List String :=
  enclosingPaths s.scope.modulePath ++ s.scope.opens ++ "" :: s.entities.autoOpened

def entity? (s : CheckerState) (segments : List String) : Option String :=
  (s.searchPaths.map (qualify · (joinPath segments))).find? s.entities.contains

/-- A static member of one of the entities, with its owner. -/
def memberOf? (s : CheckerState) (name : String) (owners : List String) : Option (String × Member) :=
  owners.findSome? fun owner =>
    ((s.entities.find? owner).bind (·.staticMember? name)).map (owner, ·)

def meaning? (s : CheckerState) (name : String) : Option Meaning :=
  match s.binder? name with
  | some index => some (.binder index)
  | none =>
    match s.memberOf? name s.containers with
    | some (owner, member) => some (.member owner member)
    | none => (s.entity? [name]).map .entity

/-- The qualified name of what is declared here. -/
def qualified (s : CheckerState) (name : String) : String :=
  if s.scope.modulePath.isEmpty then name else joinPath s.scope.modulePath ++ "." ++ name

end CheckerState

/-- What a path has in front of the written name that it ends with, without the dots between them. -/
def pathBefore (path written : String) : String :=
  let p := path.toList
  let w := written.toList
  if w.isSuffixOf p then
    String.ofList (((p.take (p.length - w.length)).reverse.dropWhile (· == '.')).reverse)
  else ""

namespace Checker

/-- Records what each segment of the written name of an entity refers to, behind the path `before`. -/
def mentionSegments (before : String) : List Ident → Checker Unit
  | [] => return
  | part :: parts => do
    let path := qualify before part.text
    if let some entity := (← get).entities.find? path then
      mention part.span (.fixed entity.symbol)
    mentionSegments path parts

def mentionEntity (name : LongIdent) (path : String) : Checker Unit :=
  mentionSegments (pathBefore path name.render) name.parts

/-- The entity that a dotted expression means, unless it starts with a bound name. -/
def entityOf? (e : Expr) : Checker (Option String) := do
  match e.longName? with
  | none => return none
  | some name =>
    readScope
    let s ← get
    if (s.binder? name.head.text).isSome then return none
    match s.entity? name.segments with
    | none => return none
    | some path =>
      mentionEntity name path
      return some path

end Checker

end ScriptAnalyzer

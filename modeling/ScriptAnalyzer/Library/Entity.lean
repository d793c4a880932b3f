import ScriptAnalyzer.Typing.Signature

/-!
Entities: namespaces, modules and types, with their members.

Values, and the methods and properties that are static, are reached through the name of their entity;
all other members through a value of the type.
-/

namespace ScriptAnalyzer

/-- A parameter of a method or a constructor. -/
structure TypedParameter where
  name : String
  type : Ty
  optional : Bool := false
  /-- The parameter takes all further arguments; its type is the array of them. -/
  variadic : Bool := false
deriving Repr

def TypedParameter.parameter (p : TypedParameter) : Parameter :=
  { name := p.name, type := p.type.render, optional := p.optional && !p.variadic
    variadic := p.variadic }

/-- One way to call a method or a constructor. -/
structure Overload where
  params : List TypedParameter
  returnType : Ty
deriving Repr

namespace Overload

def signature (o : Overload) : Signature :=
  { parameters := o.params.map TypedParameter.parameter, returnType := o.returnType.render }

def variadic? (o : Overload) : Option TypedParameter := o.params.getLast?.filter (·.variadic)

/-- Whether the overload can take this many arguments. -/
def acceptsCount (o : Overload) (count : Nat) : Bool :=
  let required := o.params.countP fun p => !p.optional && !p.variadic
  required ≤ count && (o.variadic?.isSome || count ≤ o.params.length)

/-- The overload as a function on the tuple of its arguments. -/
def functionType (o : Overload) : Ty :=
  match o.params with
  | [] => .function .unit o.returnType
  | [p] => .function p.type o.returnType
  | ps => .function (.tuple (ps.map (·.type))) o.returnType

end Overload

inductive MemberKind where
  /-- A value of a module, with the names of its curried parameters. -/
  | value (scheme : Scheme) (params : List String)
  | method (isStatic : Bool) (overloads : List Overload)
  | property (isStatic : Bool) (type : Ty)
  | field (type : Ty)
deriving Repr

structure Member where
  name : String
  kind : MemberKind
  doc : Option String := none
  span : Option Span := none
deriving Repr

/-- The name of a member or an entity inside `owner`; the outermost owner has no name. -/
def qualify (owner name : String) : String := if owner.isEmpty then name else owner ++ "." ++ name

namespace Member

/-- Whether the member is reached through the name of its entity. -/
def isStatic (m : Member) : Bool :=
  match m.kind with
  | .value _ _ => true
  | .method isStatic _ | .property isStatic _ => isStatic
  | .field _ => false

def isField (m : Member) : Bool :=
  match m.kind with
  | .field _ => true
  | _ => false

def symbol (m : Member) (owner : String) : Symbol :=
  let name := qualify owner m.name
  let { span, doc, .. } := m
  match m.kind with
  | .value scheme params =>
    match scheme.type.signature? params with
    | some signature =>
      { name, kind := .function, signature := scheme.type.render, overloads := [signature], span, doc }
    | none => { name, kind := .value, signature := scheme.type.render, span, doc }
  | .method _ overloads =>
    { name, kind := .function, signature := overloads.head?.elim "" (·.functionType.render)
      overloads := overloads.map Overload.signature, span, doc }
  | .property _ type | .field type => { name, kind := .value, signature := type.render, span, doc }

end Member

inductive EntityKind where
  | nameSpace
  | module
  | type
deriving DecidableEq, Repr

namespace EntityKind

def keyword : EntityKind → String
  | .nameSpace => "namespace"
  | .module => "module"
  | .type => "type"

def symbolKind : EntityKind → SymbolKind
  | .nameSpace | .module => .module
  | .type => .type

end EntityKind

structure Entity where
  path : String
  kind : EntityKind
  members : List Member := []
  constructors : List Overload := []
  autoOpen : Bool := false
  doc : Option String := none
  span : Option Span := none
deriving Repr

namespace Entity

def name (e : Entity) : String := String.ofList (lastSegment e.path.toList)

/-- The path of the entity around this one; it is empty at the outermost level. -/
def parentPath (e : Entity) : String :=
  String.ofList ((e.path.toList.reverse.dropWhile (· ≠ '.')).drop 1).reverse

def member? (e : Entity) (name : String) : Option Member := e.members.find? (·.name == name)

/-- The member of this name, if it is reached through the entity. -/
def staticMember? (e : Entity) (name : String) : Option Member := (e.member? name).filter (·.isStatic)

def isRecord (e : Entity) : Bool := e.kind == .type && e.members.any (·.isField)

def symbol (e : Entity) : Symbol :=
  { name := e.path, kind := e.kind.symbolKind, signature := e.kind.keyword ++ " " ++ e.path
    overloads := e.constructors.map Overload.signature, span := e.span, doc := e.doc }

end Entity

end ScriptAnalyzer

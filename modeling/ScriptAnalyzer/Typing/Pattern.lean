import ScriptAnalyzer.Typing.Annotation

/-!
The names that patterns bind.
-/

namespace ScriptAnalyzer
namespace Checker

/-- Brings a new binder into scope; it can be named in `visible`. A binder of a module has a qualified
name. -/
def bind (name : Ident) (scheme : Scheme) (params : List String) (visible : Span) (ofModule : Bool) :
    Checker Nat := do
  let s ← get
  let index := s.binders.size
  let binder : Binder :=
    { name := if ofModule then s.qualified name.text else name.text
      simpleName := name.text, scheme, params, span := name.span }
  set { s with
    binders := s.binders.push binder
    scope.binders := index :: s.scope.binders
    records.visible := (visible, index) :: s.records.visible }
  declare name.span (.binder index)
  return index

def freshAll : List Pattern → Checker (List Ty)
  | [] => return []
  | _ :: ps => do
    let t ← fresh
    let ts ← freshAll ps
    return t :: ts

mutual

/-- Binds the names of a pattern that stands for a value of type `t`; returns their binders. -/
def bindPattern (visible : Span) (ofModule : Bool) : Pattern → Ty → Checker (List Nat)
  | .named _ name, t => return [← bind name (.mono t) [] visible ofModule]
  | .wildcard _, _ | .error _, _ => return []
  | .unit span, t => do
    expect .unit t span
    return []
  | .tuple span items, t => do
    let parts ← freshAll items
    expect (.tuple parts) t span
    bindPatterns visible ofModule items parts
  | .typed span inner written, t => do
    let annotated ← annotation written
    expect annotated t span
    bindPattern visible ofModule inner annotated

def bindPatterns (visible : Span) (ofModule : Bool) : List Pattern → List Ty → Checker (List Nat)
  | p :: ps, t :: ts => do
    let first ← bindPattern visible ofModule p t
    let rest ← bindPatterns visible ofModule ps ts
    return first ++ rest
  | _, _ => return []

end

/-- Binds parameters that can be named in `visible`. Where the expected type is a function, it gives
the type of the parameter. Returns the types of the parameters and what is expected of the result. -/
def bindParams (visible : Span) : List Pattern → Option Ty → Checker (List Ty × Option Ty)
  | [], expected => return ([], expected)
  | p :: ps, expected => do
    let (t, result?) ←
      match expected with
      | some (.function param ret) => do
        let ret ← shallow ret
        pure (param, some ret)
      | _ => do
        let t ← fresh
        pure (t, none)
    let _ ← bindPattern visible false p t
    let (ts, result?) ← bindParams visible ps result?
    return (t :: ts, result?)

/-- The name that a signature shows for a parameter. -/
def paramName : Pattern → String
  | .named _ name => name.text
  | .typed _ inner _ => paramName inner
  | .unit _ => "()"
  | .tuple _ _ => "tuple"
  | .wildcard _ | .error _ => "_"

/-- The signature of a bound function. Parameters that are the unit are left out. -/
def bindingSignature? (t : Ty) (params : List String) : Option Signature :=
  (t.signature? params).map fun s =>
    { s with parameters := s.parameters.filter (·.name != "()") }

end Checker
end ScriptAnalyzer

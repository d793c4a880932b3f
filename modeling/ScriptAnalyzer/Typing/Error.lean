import ScriptAnalyzer.Diagnostic
import ScriptAnalyzer.Library.Entity
import ScriptAnalyzer.Syntax.Tree

/-!
Type errors and warnings: what is wrong, where, and how it is reported.
-/

namespace ScriptAnalyzer

namespace TypeError

inductive Cause where
  | mismatch (expected found : Ty)
  | unsupportedOperator (type : Ty) (op : BinaryOp)
  /-- A format string that ends inside a placeholder. -/
  | incompletePlaceholder
  | unknownPlaceholder (c : Char)
  | notAFunction
  | undefinedValue (name : String)
  | undefinedNamespace (path : String)
  | undefinedLabel (label : String)
  | undefinedLabelIn (label record : String)
  | undefinedIn (name path : String)
  /-- An entity that cannot stand for a value. -/
  | notAValue (name path : String) (kind : EntityKind)
  | undefinedMember (type : Ty) (name : String)
  | undefinedType (name : String)
  | noOverload (method : String) (args : List Ty)
  /-- A method with several overloads that is not called. -/
  | ambiguousMethod (method : String)
  /-- A member of a value whose type is not known yet. -/
  | indeterminateLookup
  | unresolvedReference (reference : String)
  | ignoredResult (type : Ty)
  | shadowed (name : String)
  | unused (name : String)
  | directiveNotApplied (problem : String)
deriving DecidableEq, Repr

namespace Cause

def code : Cause → String
  | mismatch _ _ | unsupportedOperator _ _ | incompletePlaceholder | unknownPlaceholder _ => "E0001"
  | notAFunction => "E0003"
  | undefinedValue _ | undefinedNamespace _ | undefinedLabel _ | undefinedLabelIn _ _
  | undefinedIn _ _ | notAValue _ _ _ | undefinedMember _ _ | undefinedType _ => "E0039"
  | noOverload _ _ | ambiguousMethod _ => "E0041"
  | indeterminateLookup => "E0072"
  | unresolvedReference _ => "E0084"
  | ignoredResult _ => "W0020"
  | shadowed _ => "W0064"
  | unused _ => "W1182"
  | directiveNotApplied _ => "W3353"

def isWarning : Cause → Bool
  | ignoredResult _ | shadowed _ | unused _ | directiveNotApplied _ => true
  | _ => false

def message : Cause → String
  | mismatch expected found =>
    "This expression was expected to have type '" ++ expected.render ++ "' but here has type '" ++
      found.render ++ "'"
  | unsupportedOperator type op =>
    "The type '" ++ type.render ++ "' does not support the operator '" ++ op.text ++ "'"
  | incompletePlaceholder => "The format string ends with an incomplete placeholder"
  | unknownPlaceholder c => "Unknown format placeholder '%" ++ c.toString ++ "'"
  | notAFunction => "This value is not a function and cannot be applied"
  | undefinedValue name => "The value or constructor '" ++ name ++ "' is not defined"
  | undefinedNamespace path => "The namespace or module '" ++ path ++ "' is not defined"
  | undefinedLabel label => "The record label '" ++ label ++ "' is not defined"
  | undefinedLabelIn label record =>
    "The record label '" ++ label ++ "' is not defined in '" ++ record ++ "'"
  | undefinedIn name path =>
    "The value, constructor, namespace or type '" ++ name ++ "' is not defined in '" ++ path ++ "'"
  | notAValue name path kind =>
    "The value or constructor '" ++ name ++ "' is not defined; '" ++ path ++ "' is a " ++ kind.keyword
  | undefinedMember type name =>
    "The type '" ++ type.render ++ "' does not define the field, constructor or member '" ++ name ++ "'"
  | undefinedType name => "The type '" ++ name ++ "' is not defined"
  | noOverload method [] => "No overloads match for method '" ++ method ++ "' with no arguments"
  | noOverload method args =>
    "No overloads match for method '" ++ method ++ "' with arguments of type " ++
      " * ".intercalate (args.map Ty.render)
  | ambiguousMethod method =>
    "The method '" ++ method ++ "' is overloaded; call it with arguments to select an overload"
  | indeterminateLookup =>
    "Lookup on object of indeterminate type based on information prior to this program point. " ++
      "A type annotation may be needed"
  | unresolvedReference reference => "The referenced library '" ++ reference ++ "' could not be found"
  | ignoredResult type =>
    "The result of this expression has type '" ++ type.render ++
      "' and is implicitly ignored. Use 'ignore' to discard it explicitly"
  | shadowed name =>
    "This definition of '" ++ name ++ "' shadows an earlier one in the same scope"
  | unused name => "The value '" ++ name ++ "' is unused"
  | directiveNotApplied problem => problem

end Cause

end TypeError

structure TypeError where
  cause : TypeError.Cause
  span : Span
deriving DecidableEq, Repr

structure WarningOptions where
  /-- Whether bindings that are not used are looked for. -/
  unused : Bool := true
  /-- Whether bindings that shadow others of their module are looked for. -/
  shadowing : Bool := true
  asErrors : Bool := false
  suppressed : List String := []
deriving DecidableEq, Repr

namespace WarningOptions

def suppresses (o : WarningOptions) (cause : TypeError.Cause) : Bool :=
  cause.isWarning && o.suppressed.contains cause.code

def severity (o : WarningOptions) (cause : TypeError.Cause) : Severity :=
  if cause.isWarning && !o.asErrors then .warning else .error

/-- The errors that are not suppressed, in the order of their places. -/
def diagnostics (o : WarningOptions) (text : Text) (errors : List TypeError) : List Diagnostic :=
  ((errors.filter fun e => !o.suppresses e.cause).map fun e =>
    Diagnostic.located text e.cause.code (o.severity e.cause) e.cause.message e.span).mergeSort
      fun d e => d.span.start ≤ e.span.start

end WarningOptions

end ScriptAnalyzer

import ScriptAnalyzer.Library.Entities
import ScriptAnalyzer.Typing.Error
import ScriptAnalyzer.Typing.Sites
import ScriptAnalyzer.Typing.Store

/-!
The state of the checker and its elementary steps.

The scope is what names mean at the current place; a construct that extends it restores it at its end.
The records list what was found at which place, the latest first. Types in the records are what they
are at the end of the file, so occurrences of bindings keep a number of the binding and no symbol.
-/

namespace ScriptAnalyzer

structure Binder where
  name : String
  simpleName : String
  scheme : Scheme
  /-- The names of the parameters of a function. -/
  params : List String
  span : Span
  used : Bool := false
deriving Repr

inductive Target where
  | binder (index : Nat)
  | fixed (symbol : Symbol)
deriving Repr

/-- A name in the text, and what it declares or refers to. -/
structure Mention where
  span : Span
  target : Target
  isDefinition : Bool
deriving Repr

structure CheckerScope where
  binders : List Nat := []
  opens : List String := []
  /-- The segments of the path of the enclosing module. -/
  modulePath : List String := []
deriving Repr

/-- What was found so far, the latest first. -/
structure CheckerRecords where
  errors : List TypeError := []
  mentions : List Mention := []
  declarations : List (Span × Target) := []
  /-- Where the binder with a number can be named. -/
  visible : List (Span × Nat) := []
  regions : List OpenRegion := []
  members : List MemberSite := []
  calls : List CallSite := []
deriving Repr

/-- An access behind the end of a table. Nothing that is found after it means anything. -/
inductive Fault where
  /-- A type variable that the store does not have is bound. -/
  | variable
  /-- A binder is asked for by a number that none has. -/
  | binder
deriving DecidableEq, Repr

structure CheckerState where
  store : TypeStore := {}
  entities : Entities
  binders : Array Binder := #[]
  scope : CheckerScope := {}
  /-- The abbreviated types by qualified name, the latest first. -/
  abbreviations : List (String × Ty) := []
  /-- The type variables that annotations of the current declaration name. -/
  typeVars : List (String × Ty) := []
  records : CheckerRecords := {}
  options : WarningOptions := {}
  faults : List Fault := []

/-- The state behind an access that is a fault, unless it is inside of its table. -/
def CheckerState.demand (s : CheckerState) (fault : Fault) (inside : Bool) : CheckerState :=
  { s with faults := if inside then s.faults else fault :: s.faults }

@[simp] theorem CheckerState.demand_store (s : CheckerState) (fault : Fault) (inside : Bool) :
    (s.demand fault inside).store = s.store := rfl

/-- The state behind reading the binders in scope, to find one by its name. -/
def CheckerState.readScope (s : CheckerState) : CheckerState :=
  s.demand .binder (s.scope.binders.all (· < s.binders.size))

abbrev Checker := StateM CheckerState

/-- The meaning of an expression that may be called. -/
inductive Callee where
  /-- A value, with the signatures to show for it. -/
  | value (type : Ty) (signatures : List Signature := [])
  /-- The overloads of a method or a constructor. -/
  | method (name : String) (overloads : List Overload)

namespace Checker

/-! Types -/

def fresh : Checker Ty := modifyGet fun s =>
  let (t, store) := s.store.fresh
  (t, { s with store })

def shallow (t : Ty) : Checker Ty := return (← get).store.shallow t

def zonk (t : Ty) : Checker Ty := return (← get).store.zonk t

def instantiate (scheme : Scheme) : Checker Ty := modifyGet fun s =>
  let (t, store) := s.store.instantiate scheme
  (t, { s with store })

/-- Makes two types equal; tells whether that is possible. -/
def unify (a b : Ty) : Checker Bool := modifyGet fun s =>
  let (ok, store) := s.store.unify a b
  (ok, { s.demand .variable (s.store.unifyInside a b) with store })

/-- Tells whether two types could be made equal. -/
def unifies (a b : Ty) : Checker Bool := modifyGet fun s =>
  (s.store.unifies a b, s.demand .variable (s.store.unifyInside a b))

/-! Binders -/

def binderAt? (index : Nat) : Checker (Option Binder) := modifyGet fun s =>
  (s.binders[index]?, s.demand .binder (index < s.binders.size))

def readScope : Checker Unit := modify CheckerState.readScope

/-! Records -/

def report (cause : TypeError.Cause) (span : Span) : Checker Unit := modify fun s =>
  { s with records.errors := ⟨cause, span⟩ :: s.records.errors }

def mention (span : Span) (target : Target) : Checker Unit := modify fun s =>
  { s with records.mentions := ⟨span, target, false⟩ :: s.records.mentions }

def declare (span : Span) (target : Target) : Checker Unit := modify fun s =>
  { s with
    records.declarations := (span, target) :: s.records.declarations
    records.mentions := ⟨span, target, true⟩ :: s.records.mentions }

def recordMember (site : MemberSite) : Checker Unit := modify fun s =>
  { s with records.members := site :: s.records.members }

def recordCall (site : CallSite) : Checker Unit := modify fun s =>
  { s with records.calls := site :: s.records.calls }

def recordRegion (span : Span) (path : String) : Checker Unit := modify fun s =>
  { s with records.regions := ⟨span, path⟩ :: s.records.regions }

/-- Makes the found type equal to the expected one, and reports if that is impossible. -/
def expect (expected found : Ty) (span : Span) : Checker Unit := do
  unless ← unify expected found do
    report (.mismatch (← zonk expected) (← zonk found)) span

/-! Scopes -/

/-- Runs a checker and restores the scope behind it. -/
def withScope {α : Type} (p : Checker α) : Checker α := do
  let saved := (← get).scope
  let a ← p
  modify fun s => { s with scope := saved }
  return a

end Checker

end ScriptAnalyzer

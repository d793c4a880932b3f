import ScriptAnalyzer.Typing.Ty

/-!
What the places of a checked file stand for.
-/

namespace ScriptAnalyzer

/-- A name in the text, and the symbol that it declares or refers to. -/
structure Occurrence where
  span : Span
  symbol : Symbol
  isDefinition : Bool
deriving DecidableEq, Repr

/-- A binding with the part of the text in which it can be named. -/
structure ScopeEntry where
  visible : Span
  symbol : Symbol
  type : Ty
deriving DecidableEq, Repr

/-- A part of the text in which the contents of an entity need no qualification. -/
structure OpenRegion where
  span : Span
  path : String
deriving DecidableEq, Repr

inductive Receiver where
  | value (type : Ty)
  | entity (path : String)
deriving DecidableEq, Repr

structure MemberSite where
  dot : Span
  name : Option Span
  span : Span
  receiver : Receiver
deriving DecidableEq, Repr

/-- Whether a cursor at `offset` completes the name of the member. -/
def MemberSite.covers (m : MemberSite) (offset : Nat) : Bool :=
  match m.name with
  | some name => m.dot.stop ≤ offset && name.touches offset
  | none => offset == m.dot.stop

structure CallSite where
  callee : Span
  parens : Span
  /-- The last segment of the callee; empty if it has no name. -/
  name : String
  overloads : List Signature
deriving DecidableEq, Repr

def firstLeast {α : Type} (measure : α → Nat) : List α → Option α
  | [] => none
  | a :: as =>
    match firstLeast measure as with
    | none => some a
    | some b => if measure b < measure a then some b else some a

end ScriptAnalyzer

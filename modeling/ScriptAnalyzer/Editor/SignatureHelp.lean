import ScriptAnalyzer.Editor.Utf16
import ScriptAnalyzer.Query.Answer

/-!
The overloads of the call that is being typed, with the argument that the cursor is in.

The call is read off the current line, so that the answer keeps up with the editor while the checked text
is one edit behind.
-/

namespace ScriptAnalyzer

structure SignatureHelp where
  name : String
  overloads : List Signature
  /-- The number of the argument that the cursor is in. -/
  argument : Nat
deriving DecidableEq, Repr

/-- Whether a signature has a parameter for the argument of this number. -/
def Signature.accepts (s : Signature) (argument : Nat) : Bool :=
  argument < s.parameters.length || s.parameters.getLast?.any (·.variadic)

namespace SignatureHelp

/-- The number of the first overload that accepts the argument, or else of the first. -/
def active (h : SignatureHelp) : Nat := (h.overloads.findIdx? (·.accepts h.argument)).getD 0

def signatureJson (name : String) (s : Signature) : Json :=
  .object [("label", .string (s.render name)),
    ("parameters", .array (s.parameters.map fun p => .object [("label", .string p.render)]))]

def toJson (h : SignatureHelp) : Json :=
  .object [("signatures", .array (h.overloads.map (signatureJson h.name))),
    ("activeSignature", .nat h.active), ("activeParameter", .nat h.argument)]

end SignatureHelp

/-- The overloads of the call around a place of the editor's text. -/
def CheckResult.signatureHelp (r : CheckResult) (text : Text) (place : UnitPosition) :
    Option SignatureHelp := do
  let p := place.inText text
  let line ← editorLine? text p.line
  let (path, argument) ← callAt? line p.character
  let group := r.methodOverloads p path
  if group.overloads.isEmpty then none else some ⟨group.name, group.overloads, argument⟩

end ScriptAnalyzer

import ScriptAnalyzer.Editor.Utf16
import ScriptAnalyzer.Query.Answer

/-!
Completions as an editor shows them.
-/

namespace ScriptAnalyzer

inductive CompletionIcon where
  | method
  | function
  | value
  | type
  | module
  | property
deriving DecidableEq, Repr

namespace CompletionIcon

/-- The number of an icon in the protocol between editors and servers. -/
def number : CompletionIcon → Nat
  | method => 2
  | function => 3
  | value => 6
  | type => 7
  | module => 9
  | property => 10

/-- Values and functions have icons of their own where they are members. -/
def ofKind (kind : SymbolKind) (isMember : Bool) : CompletionIcon :=
  match kind with
  | .value => if isMember then property else value
  | .function => if isMember then method else function
  | .type => type
  | .module => module

end CompletionIcon

structure CompletionItem where
  label : String
  icon : CompletionIcon
  detail : String
deriving DecidableEq, Repr

namespace CompletionItem

/-- Whether the text in front of a column ends with a dot. -/
def followsDot (line : Text) (column : Nat) : Bool := (line.take column).getLast? = some '.'

def toJson (i : CompletionItem) : Json :=
  .object [("label", .string i.label), ("kind", .nat i.icon.number), ("detail", .string i.detail)]

end CompletionItem

/-- The completions at a place of the editor's text; none at all behind its last line. -/
def CheckResult.completionItems (r : CheckResult) (text : Text) (place : UnitPosition) :
    Option (List CompletionItem) := do
  let p := place.inText text
  let line ← editorLine? text p.line
  let (path, partialName) := completionPathAt line p.character
  let isMember := !path.isEmpty || CompletionItem.followsDot line p.character
  return (r.completions p line path partialName (r.isStale p line)).map fun c =>
    { label := c.name, icon := .ofKind c.kind isMember, detail := c.detail }

end ScriptAnalyzer

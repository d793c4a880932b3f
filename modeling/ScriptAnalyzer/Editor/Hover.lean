import ScriptAnalyzer.Editor.Utf16
import ScriptAnalyzer.Query.Answer

/-!
Hovers: the tooltip at a place of an editor, written in Markdown.
-/

namespace ScriptAnalyzer

structure Hover where
  markdown : String
deriving DecidableEq, Repr

/-- A tooltip as a block of code, with its documentation behind a rule. -/
def Tooltip.markdown (t : Tooltip) : String :=
  "```glint\n" ++ t.code ++ "\n```" ++ t.doc?.elim "" ("\n\n---\n\n" ++ ·)

/-- The hover at a place of the editor's text, from a result that may belong to an earlier text. -/
def CheckResult.hover (r : CheckResult) (text : Text) (place : UnitPosition) : Option Hover := do
  let p := place.inText text
  let line ← editorLine? text p.line
  match r.tooltip (.ofLine p line (text.classAtPosition p)) with
  | .nothing => none
  | t => some ⟨t.markdown⟩

def Hover.toJson (h : Hover) : Json :=
  .object [("contents", .object [("kind", .string "markdown"), ("value", .string h.markdown)])]

end ScriptAnalyzer

import ScriptAnalyzer.Json.Value
import ScriptAnalyzer.Query.Completion
import ScriptAnalyzer.Query.MethodGroup
import ScriptAnalyzer.Query.NamePath
import ScriptAnalyzer.Query.Tooltip

/-!
Queries about a place of a checked file, and their answers as JSON.
-/

namespace ScriptAnalyzer

def Parameter.toJson (p : Parameter) : Json :=
  .object [("name", .string p.name), ("ty", .string p.type), ("optional", .bool p.optional),
    ("variadic", .bool p.variadic)]

def Signature.toJson (s : Signature) : Json :=
  .object [("parameters", .array (s.parameters.map Parameter.toJson)),
    ("return_type", .string s.returnType)]

def Tooltip.toJson (t : Tooltip) : Json :=
  match t with
  | nothing => .object [("kind", .string "no_info")]
  | symbol name kind signature doc =>
    .sparse [("kind", some (.string "symbol")), ("name", some (.string name)),
      ("symbol_kind", some (.string kind.name)), ("signature", some (.string signature)),
      ("doc", doc.map .string)]
  | overloads name signatures doc =>
    .sparse [("kind", some (.string "overload_group")), ("name", some (.string name)),
      ("overloads", some (.array (signatures.map Signature.toJson))), ("doc", doc.map .string)]
  | literal text type =>
    .object [("kind", .string "literal"), ("text", .string text), ("ty", .string type)]

def Completion.toJson (c : Completion) : Json :=
  .object [("name", .string c.name), ("kind", .string c.kind.name), ("detail", .string c.detail)]

def MethodGroup.toJson (g : MethodGroup) : Json :=
  .object [("name", .string g.name), ("overloads", .array (g.overloads.map Signature.toJson))]

inductive Query where
  | tooltip
  | complete
  /-- The overloads of the call around it, or of the method with this dotted name. -/
  | overloads (name : Option String)
deriving DecidableEq, Repr

/-- The site of a tooltip, as the line and the class of its token show it. -/
def TooltipSite.ofLine (p : Position) (line : Text) (token : TokenClass) : TooltipSite :=
  ⟨p, line, namePathAt line p.character, token⟩

def segments (name : String) : List String := (Text.splitOn '.' name.toList).map String.ofList

/-- Answers a query from the checked text alone. -/
def CheckResult.answer (r : CheckResult) (p : Position) : Query → Json
  | .tooltip => (r.tooltip (.ofLine p (r.lineText p.line) (r.tokenClassAt p))).toJson
  | .complete =>
    let line := r.lineText p.line
    let (path, partialName) := completionPathAt line p.character
    .array ((r.completions p line path partialName false).map Completion.toJson)
  | .overloads name => (r.methodOverloads p (name.elim [] segments)).toJson

end ScriptAnalyzer

import ScriptAnalyzer.Query.Position

/-!
Tooltips: what is under the cursor.
-/

namespace ScriptAnalyzer

inductive Tooltip where
  | nothing
  | symbol (name : String) (kind : SymbolKind) (signature : String) (doc : Option String)
  | overloads (name : String) (signatures : List Signature) (doc : Option String)
  | literal (text : String) (type : String)
deriving DecidableEq, Repr

namespace Tooltip

def ofSymbol (s : Symbol) : Tooltip :=
  if 1 < s.overloads.length then overloads s.name s.overloads s.doc
  else symbol s.name s.kind s.signature s.doc

def doc? : Tooltip → Option String
  | symbol _ _ _ doc | overloads _ _ doc => doc
  | nothing | literal _ _ => none

def code : Tooltip → String
  | nothing => ""
  | symbol name .value signature _ | symbol name .function signature _ =>
    "val " ++ String.ofList (lastSegment name.toList) ++ " : " ++ signature
  | symbol _ _ signature _ => signature
  | overloads name signatures _ =>
    "\n".intercalate (signatures.map (·.render (String.ofList (lastSegment name.toList))))
  | literal text type => text ++ " : " ++ type

def render (t : Tooltip) : String :=
  match t.doc? with
  | some doc => t.code ++ "\n\n" ++ doc
  | none => t.code

end Tooltip

/-- What an editor knows about the place of a tooltip. -/
structure TooltipSite where
  position : Position
  line : Text
  path : List String
  token : TokenClass

def isReferenceLine (line : Text) : Bool :=
  match Text.trimStart line with
  | '#' :: 'r' :: c :: _ => Text.isWhiteSpace c
  | _ => false

/-- The text between the first two quotes of a line. -/
def quotedArgument? (line : Text) : Option Text :=
  match Text.splitOn '"' line with
  | _ :: argument :: _ :: _ => some argument
  | _ => none

/-- Whether the argument of a directive means this reference. -/
def Reference.isMeantBy (argument : Text) : Reference → Bool
  | library name => name.toList == Text.trim argument
  | file path => path.endsWith ⟨String.ofList (Text.trim argument)⟩

namespace CheckResult

/-- The tooltip of a name. A dotted name is looked up by its path first, any other by its place, and
not by its place if the line has changed. -/
def symbolTooltip (r : CheckResult) (offset : Nat) (path : List String) (stale : Bool) : Tooltip :=
  let byPlace := if stale then none else r.symbolAt? offset
  let byPath := r.resolvePath? path offset
  let symbol := if 1 < path.length then byPath.or byPlace else byPlace.or byPath
  symbol.elim .nothing .ofSymbol

def literalType? (token : TokenClass) (text : Text) : Option String :=
  match token with
  | .string => some "string"
  | .char => some "char"
  | .number => some (if text.any fun c => c == '.' || c == 'e' || c == 'E' then "float" else "int")
  | .keyword => if text = ['t', 'r', 'u', 'e'] || text = ['f', 'a', 'l', 's', 'e'] then some "bool" else none
  | _ => none

/-- The tooltip of the literal at `offset`, if the token there is of the class that the editor sees. -/
def literalTooltip (r : CheckResult) (offset : Nat) (token : TokenClass) : Tooltip :=
  match r.file.text.tokenAt? offset with
  | none => .nothing
  | some (found, span) =>
    let text := (span.slice? r.file.text).getD []
    match if found = token then literalType? found text else none with
    | some type => .literal (String.ofList text) type
    | none => .nothing

/-- The tooltip of a `#r` line: the library that it refers to. -/
def referenceTooltip (r : CheckResult) (line : Text) : Tooltip :=
  match quotedArgument? line with
  | none => .nothing
  | some argument =>
    match r.context.references.find? (·.isMeantBy argument) with
    | none => .nothing
    | some reference =>
      let library := reference.libraryName?.getD (String.ofList argument)
      let place := match reference with
        | .library _ => ""
        | .file path => " (" ++ path.text ++ ")"
      let signature := "library " ++ library ++
        if Catalog.hasLibrary library then place else " (not found)"
      .symbol reference.render .module signature none

def tooltip (r : CheckResult) (site : TooltipSite) : Tooltip :=
  let offset := r.offsetNear site.position
  match site.token with
  | .string =>
    if isReferenceLine site.line then r.referenceTooltip site.line
    else r.literalTooltip offset .string
  | .number | .char | .keyword => r.literalTooltip offset site.token
  | .identifier => r.symbolTooltip offset site.path (r.isStale site.position site.line)
  | _ => .nothing

end CheckResult
end ScriptAnalyzer

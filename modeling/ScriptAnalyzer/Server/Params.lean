import ScriptAnalyzer.Editor.Utf16
import ScriptAnalyzer.Json.Decode
import ScriptAnalyzer.Server.Uri

/-!
The parameters of the messages that the server answers.
-/

namespace ScriptAnalyzer
namespace Params

open Json Decoder

def uri : Decoder String := fun j => do
  let s ← text j
  match Uri.check s with
  | .ok _ => return s
  | .error e => throw (.invalid e.message)

/-- A number or text that names the progress of a request. -/
def progressToken : Decoder Unit := either "NumberOrString" signed32 text

def identifier : Decoder String := fun j => do
  let get ← recordFields "struct TextDocumentIdentifier" .exactly [.required "uri" uri] j
  uri (get "uri")

def position : Decoder UnitPosition := fun j => do
  let get ← recordFields "struct Position" .exactly
    [.required "line" unsigned32, .required "character" unsigned32] j
  return ⟨← unsigned32 (get "line"), ← unsigned32 (get "character")⟩

def completionContext : Decoder Unit :=
  record "struct CompletionContext"
    [.required "triggerKind" signed32, .optional "triggerCharacter" text]

def markupKind : Decoder Unit := oneOf ["plaintext", "markdown"]

def documentation : Decoder Unit :=
  either "Documentation" text
    (record "struct MarkupContent" [.required "kind" markupKind, .required "value" text])

/-- The first and the last place of a parameter in the text of its signature. -/
def offsets : Decoder Unit
  | array [start, stop] => do
    discard <| unsigned32 start
    discard <| unsigned32 stop
  | j => .error (.wrongType j.describe "an array of length 2")

def parameter : Decoder Unit :=
  record "struct ParameterInformation"
    [.required "label" (either "ParameterLabel" text offsets), .optional "documentation" documentation]

def signature : Decoder Unit :=
  record "struct SignatureInformation"
    [.required "label" text, .optional "documentation" documentation,
      .optional "parameters" (list parameter), .optional "activeParameter" unsigned32]

def shownSignatures : Decoder Unit :=
  record "struct SignatureHelp"
    [.required "signatures" (list signature), .optional "activeSignature" unsigned32,
      .optional "activeParameter" unsigned32]

def signatureContext : Decoder Unit :=
  record "struct SignatureHelpContext"
    [.required "triggerKind" signed32, .optional "triggerCharacter" text,
      .required "isRetrigger" boolean, .optional "activeSignatureHelp" shownSignatures]

/-- A request about a place of a document. -/
structure Place where
  uri : String
  position : UnitPosition
deriving DecidableEq, Repr

/-- The place that a request is about. Its other fields are read around it. -/
def place (type : String) (before after : List Field) : Decoder Place := fun j => do
  discard <| objectFields type before j
  let get ← objectFields type [.required "textDocument" identifier, .required "position" position] j
  discard <| objectFields type after j
  return ⟨← identifier (get "textDocument"), ← position (get "position")⟩

def workDone : Field := .optional "workDoneToken" progressToken
def partialResult : Field := .optional "partialResultToken" progressToken

def hover : Decoder Place := place "struct HoverParams" [] [workDone]

def completion : Decoder Place := fun j => do
  let p ← place "struct CompletionParams" [.optional "context" completionContext] [workDone] j
  discard <| objectFields "struct CompletionParams" [partialResult] j
  return p

def signatureHelp : Decoder Place :=
  place "struct SignatureHelpParams" [.optional "context" signatureContext] [workDone]

inductive DocumentEvent where
  | opened (uri : String) (version : Int) (text : Text)
  | changed (uri : String) (version : Int) (text : Text)
  | saved (uri : String)
  | closed (uri : String)
deriving DecidableEq, Repr

def opened : Decoder DocumentEvent := fun j => do
  let item (j : Json) := recordFields "struct TextDocumentItem" .fewer
    [.required "uri" uri, .required "languageId" text, .required "version" signed32, .required "text" text] j
  let get ← recordFields "struct DidOpenTextDocumentParams" .fewer [.required "textDocument" item] j
  let get ← item (get "textDocument")
  return .opened (← uri (get "uri")) (← signed32 (get "version")) (← text (get "text")).toList

def range : Decoder Unit :=
  record "struct Range" [.required "start" position, .required "end" position]

def change : Decoder String := fun j => do
  let get ← recordFields "struct TextDocumentContentChangeEvent" .fewer
    [.optional "range" range, .optional "rangeLength" unsigned32, .required "text" text] j
  text (get "text")

/-- A change of a document; the last of several texts is the whole new one. -/
def changed : Decoder (Option DocumentEvent) := fun j => do
  let item (j : Json) := recordFields "struct VersionedTextDocumentIdentifier" .fewer
    [.required "uri" uri, .required "version" signed32] j
  let get ← recordFields "struct DidChangeTextDocumentParams" .fewer
    [.required "textDocument" item, .required "contentChanges" (list change)] j
  let texts ← list change (get "contentChanges")
  let get ← item (get "textDocument")
  let uri ← uri (get "uri")
  let version ← signed32 (get "version")
  return texts.getLast?.map fun t => .changed uri version t.toList

def saved : Decoder DocumentEvent := fun j => do
  let get ← recordFields "struct DidSaveTextDocumentParams" .fewer
    [.required "textDocument" identifier, .optional "text" text] j
  return .saved (← identifier (get "textDocument"))

def closed : Decoder DocumentEvent := fun j => do
  let get ← recordFields "struct DidCloseTextDocumentParams" .fewer [.required "textDocument" identifier] j
  return .closed (← identifier (get "textDocument"))

/-- The event that a notification tells; none if it is not about documents, or cannot be used. -/
def event? (method : String) (params : Json) : Option DocumentEvent :=
  match method with
  | "textDocument/didOpen" => (opened params).toOption
  | "textDocument/didChange" => (changed params).toOption.join
  | "textDocument/didSave" => (saved params).toOption
  | "textDocument/didClose" => (closed params).toOption
  | _ => none

end Params
end ScriptAnalyzer

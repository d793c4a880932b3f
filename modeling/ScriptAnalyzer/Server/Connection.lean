import ScriptAnalyzer.Json.Debug
import ScriptAnalyzer.Server.ClientCapabilities
import ScriptAnalyzer.Server.Session

/-!
A connection with an editor: the editor introduces itself, the server tells what it can do, and the session
begins.
-/

namespace ScriptAnalyzer

def capabilities : Json :=
  let characters (cs : List String) : Json := .object [("triggerCharacters", .array (cs.map .string))]
  .object [("positionEncoding", .string "utf-16"),
    ("textDocumentSync", .object [("openClose", .bool true), ("change", .nat 1), ("save", .bool true)]),
    ("hoverProvider", .bool true), ("completionProvider", characters ["."]),
    ("signatureHelpProvider", characters ["(", ","])]

/-- What the server answers when the editor introduces itself. -/
def introduction : Json :=
  .object [("capabilities", capabilities),
    ("serverInfo", .object [("name", .string "glint-lsp"), ("version", .string "0.1.0")])]

namespace Params

open Json Decoder

def folder : Decoder Unit :=
  record "struct WorkspaceFolder" [.required "uri" uri, .required "name" text]

def clientInfo : Decoder Unit :=
  record "struct ClientInfo" [.required "name" text, .optional "version" text]

def introduction : Decoder Unit := fun j => do
  discard <| objectFields "struct InitializeParams"
    [.optional "processId" unsigned32, .optional "rootPath" text, .optional "rootUri" uri,
      .optional "initializationOptions" anything, .required "capabilities" clientCapabilities,
      .optional "trace" (oneOf ["off", "messages", "verbose"]),
      .optional "workspaceFolders" (list folder), .optional "clientInfo" clientInfo,
      .optional "locale" text] j
  discard <| objectFields "struct InitializeParams" [workDone] j

end Params

inductive Connection where
  | waiting
  | introduced
  | running (s : Session)
  | broken

namespace Connection

/-- A request, as it is shown in a message. -/
def showRequest (id : MessageId) (method : String) (params : Json) : String :=
  let id := match id with
    | .number n => "I32(" ++ toString n ++ ")"
    | .string s => "String(" ++ Text.quoted s ++ ")"
  "Request \x7b id: RequestId(" ++ id ++ "), method: " ++ Text.quoted method ++ ", params: " ++
    params.debug ++ " \x7d"

/-- Handles a message; `session` is the one that may begin. -/
def receive (session : Session) (c : Connection) (m : Message) : List Reply × Connection :=
  match c, m with
  | waiting, .request id "initialize" params =>
    match Params.introduction params with
    | .ok _ => ([.response id (.ok introduction)], introduced)
    | .error _ => ([], broken)
  | waiting, .request id method params =>
    ([.response id (.error (.notInitialized (showRequest id method params)))], waiting)
  | waiting, .notification "exit" _ | waiting, .response _ => ([], broken)
  | waiting, .notification _ _ => ([], waiting)
  | introduced, .notification "initialized" _ => ([], running session)
  | introduced, _ => ([], broken)
  | running s, m =>
    let (replies, s) := (s.receive m).takeOutbox
    (replies, running s)
  | broken, _ => ([], broken)

def isOver : Connection → Bool
  | running s => s.isOver
  | broken => true
  | _ => false

/-- The exit code when no more messages come. -/
def exitCode : Connection → Nat
  | running _ => 0
  | _ => 1

/-- Handles messages up to the end of the connection; a text that is no message breaks it. -/
def receiveAll (session : Session) : Connection → List (Option Message) → List Reply × Connection
  | c, [] => ([], c)
  | c, m :: ms =>
    if c.isOver then ([], c)
    else match m with
    | none => ([], broken)
    | some m =>
      let (replies, c) := c.receive session m
      let (more, c) := receiveAll session c ms
      (replies ++ more, c)

end Connection
end ScriptAnalyzer

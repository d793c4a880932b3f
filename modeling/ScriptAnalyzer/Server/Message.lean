import ScriptAnalyzer.Json.Decode

/-!
The messages between an editor and the server.
-/

namespace ScriptAnalyzer

/-- The identity of a request, by which its response is known. -/
inductive MessageId where
  | number (n : Int)
  | string (s : String)
deriving DecidableEq, Repr

namespace MessageId

open Json Decoder in
def decode : Decoder MessageId
  | .string s => .ok (string s)
  | j => match signed32 j with
    | .ok n => .ok (number n)
    | .error _ => .error (.noVariant "RequestId")

def toJson : MessageId → Json
  | number n => .integer n
  | string s => .string s

end MessageId

inductive Message where
  | request (id : MessageId) (method : String) (params : Json)
  | response (id : MessageId)
  | notification (method : String) (params : Json)

namespace Message

open Json Decoder

def asRequest : Decoder Message := fun j => do
  let get ← recordFields "struct Request" .exactly
    [.required "id" MessageId.decode, .required "method" text, .defaulted "params" anything] j
  return request (← MessageId.decode (get "id")) (← text (get "method")) (get "params")

def failure : Decoder Unit :=
  record "struct ResponseError"
    [.required "code" signed32, .required "message" text, .defaulted "data" anything]

def asResponse : Decoder Message := fun j => do
  let get ← recordFields "struct Response" .exactly
    [.required "id" MessageId.decode, .defaulted "result" anything, .defaulted "error" failure] j
  return response (← MessageId.decode (get "id"))

def asNotification : Decoder Message := fun j => do
  let get ← recordFields "struct Notification" .exactly
    [.required "method" text, .defaulted "params" anything] j
  return notification (← text (get "method")) (get "params")

/-- A message that lacks a method is a response, and one that lacks an identity a notification. -/
def ofJson? (j : Json) : Option Message :=
  (asRequest j).toOption <|> (asResponse j).toOption <|> (asNotification j).toOption

end Message

inductive RequestError where
  | unknownMethod (method : String)
  | shuttingDown
  | badParams (cause : DecodeError)
  /-- The request came before the server was initialized. -/
  | notInitialized (request : String)
deriving DecidableEq, Repr

namespace RequestError

def code : RequestError → Int
  | unknownMethod _ => -32601
  | shuttingDown => -32600
  | badParams _ => -32603
  | notInitialized _ => -32002

def message : RequestError → String
  | unknownMethod method => "Unhandled request: " ++ method
  | shuttingDown => "Server is shutting down"
  | badParams cause => cause.message
  | notInitialized request => "expected initialize request, got " ++ request

end RequestError

inductive Reply where
  | response (id : MessageId) (result : Except RequestError Json)
  | notification (method : String) (params : Json)

def Reply.members : Reply → List (String × Json)
  | response id (.ok result) => [("id", id.toJson), ("result", result)]
  | response id (.error e) =>
    [("id", id.toJson),
      ("error", .object [("code", .integer e.code), ("message", .string e.message)])]
  | notification method params => [("method", .string method), ("params", params)]

/-- A message as it is written to the editor. -/
def Reply.toJson (r : Reply) : Json := .object (("jsonrpc", .string "2.0") :: r.members)

end ScriptAnalyzer

import ScriptAnalyzer.Analysis.Coordinator
import ScriptAnalyzer.Editor.CompletionItem
import ScriptAnalyzer.Editor.Hover
import ScriptAnalyzer.Editor.SignatureHelp
import ScriptAnalyzer.Server.Message
import ScriptAnalyzer.Server.Sync

/-!
A session with an editor. Messages are handled in their order. New texts are queued for a worker that
checks one after the other; when it takes the queue, it takes the newest text of each document. Requests
are answered from the newest result, and wait only if there is none.
-/

namespace ScriptAnalyzer

structure Session where
  coordinator : Coordinator CheckResult
  documents : Documents := {}
  shuttingDown : Bool := false
  isOver : Bool := false
  queue : List AnalysisRequest := []
  /-- What the worker has taken and not begun. -/
  batch : List AnalysisRequest := []
  /-- What the worker waits for, with the number of its call. -/
  current : Option (AnalysisRequest × Nat) := none
  /-- The messages to the editor, the oldest first. -/
  outbox : List Reply := []
  gate : Option Gate := none

/-- The newest request of each document, in the order in which the documents came. -/
def AnalysisRequest.coalesce : List AnalysisRequest → List AnalysisRequest
  | [] => []
  | r :: rs =>
    ((r :: rs).reverse.find? (·.uri = r.uri)).toList ++
      (coalesce rs).filter (·.uri ≠ r.uri)

namespace Session

def send (s : Session) (r : Reply) : Session := { s with outbox := s.outbox ++ [r] }

def publish (s : Session) (p : Publication) : Session :=
  s.send (.notification "textDocument/publishDiagnostics" p.params)

def perform (s : Session) : SyncAction → Session
  | .analyze r => { s with queue := s.queue ++ [r] }
  | .markDirty path => { s with coordinator := s.coordinator.modify path (·.markDirty) }
  | .forget path => { s with coordinator := s.coordinator.modify path (·.close) }
  | .publish p => s.publish p

/-! The worker -/

/-- The worker begins with what it has taken, or takes the queue. -/
def takeWork? (s : Session) : Option Session :=
  match s.batch, s.queue with
  | r :: rest, _ =>
    let (call, c) := s.coordinator.request r.path r.text
    some { s with coordinator := c, batch := rest, current := some (r, call) }
  | [], [] => none
  | [], queue => some { s with batch := AnalysisRequest.coalesce queue, queue := [] }

def work? (s : Session) : Option Session :=
  match s.current with
  | none => s.takeWork?
  | some (r, call) =>
    ((s.coordinator.file r.path).outcome? call).map fun outcome =>
      let c := s.coordinator.modify r.path (·.dropReturned)
      let s := { s with coordinator := c, current := none }
      (s.documents.publication? r outcome).elim s s.publish

def workAll : Nat → Session → Session
  | 0, s => s
  | n + 1, s =>
    let s := { s with coordinator := s.coordinator.settleDown s.gate }
    s.work?.elim s (workAll n)

/-- Goes on until nothing can happen: the worker takes the queue once, and begins and ends with each
document once. -/
def settleDown (s : Session) : Session :=
  workAll (2 * (s.queue.length + s.batch.length) + 3) s

/-! Requests -/

/-- A result for a text: the one that belongs to it, or else the last one. Only if there is none, an
analysis is waited for. -/
def resultFor? (s : Session) (path : Path) (text : Text) : Option CheckResult × Session :=
  let (readiness, c) := s.coordinator.poll path text
  let s := { s with coordinator := c }
  let latest := (c.file path).latest?
  match readiness, latest with
  | .ready result, _ => (some result, s)
  | .failed _, latest => (latest, s)
  | .notReady, some result => (some result, s)
  | .notReady, none =>
    let (call, c) := c.request path text
    let c := c.settleDown s.gate
    (((c.file path).outcome? call).bind Except.toOption, { s with coordinator := c })

/-- Answers a request about a place of a document from a result for it. -/
def answerAt (s : Session) (p : Params.Place)
    (answer : CheckResult → Text → UnitPosition → Option Json) : Json × Session :=
  match (Uri.filePath? p.uri).bind fun path => (s.documents.find? ⟨path⟩).map (Path.mk path, ·) with
  | none => (.null, s)
  | some (path, d) =>
    let (result, s) := s.resultFor? path d.text
    ((result.bind (answer · d.text p.position)).getD .null, s)

/-- Answers a request whose parameters name a place. -/
def answerParams (s : Session) (params : Json) (decode : Json.Decoder Params.Place)
    (answer : CheckResult → Text → UnitPosition → Option Json) : Except RequestError Json × Session :=
  match decode params with
  | .error e => (.error (.badParams e), s)
  | .ok p =>
    let (j, s) := s.answerAt p answer
    (.ok j, s)

def hoverJson (r : CheckResult) (text : Text) (p : UnitPosition) : Option Json :=
  (r.hover text p).map Hover.toJson

def completionJson (r : CheckResult) (text : Text) (p : UnitPosition) : Option Json :=
  (r.completionItems text p).map fun items => .array (items.map CompletionItem.toJson)

def signatureJson (r : CheckResult) (text : Text) (p : UnitPosition) : Option Json :=
  (r.signatureHelp text p).map SignatureHelp.toJson

def answer (s : Session) (method : String) (params : Json) : Except RequestError Json × Session :=
  if s.shuttingDown then (.error .shuttingDown, s)
  else match method with
  | "shutdown" => (.ok .null, { s with shuttingDown := true })
  | "textDocument/hover" => s.answerParams params Params.hover hoverJson
  | "textDocument/completion" => s.answerParams params Params.completion completionJson
  | "textDocument/signatureHelp" => s.answerParams params Params.signatureHelp signatureJson
  | method => (.error (.unknownMethod method), s)

def notice (s : Session) (method : String) (params : Json) : Session :=
  if method = "exit" then { s with isOver := true }
  else match Params.event? method params with
  | none => s
  | some e =>
    let (documents, actions) := s.documents.apply e
    actions.foldl perform { s with documents }

/-- Handles a message. After the session is over nothing is handled. -/
def handle (s : Session) (m : Message) : Session :=
  if s.isOver then s
  else match m with
  | .request id method params =>
    let (result, s) := s.answer method params
    s.send (.response id result)
  | .notification method params => s.notice method params
  | .response _ => s

/-- Handles a message, and lets the worker go on as far as it can. -/
def receive (s : Session) (m : Message) : Session :=
  let s := s.handle m
  if s.isOver then s else s.settleDown

def setGate (s : Session) (gate : Option Gate) : Session := { s with gate }.settleDown

def takeOutbox (s : Session) : List Reply × Session := (s.outbox, { s with outbox := [] })

end Session
end ScriptAnalyzer

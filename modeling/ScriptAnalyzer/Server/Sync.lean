import ScriptAnalyzer.Analysis.FrontEnd
import ScriptAnalyzer.Editor.Document
import ScriptAnalyzer.Editor.Published
import ScriptAnalyzer.Server.Params

/-!
Keeping up with the editor: what its documents are, which analyses they need, and which outcomes are
published.

An outcome comes back when the editor may have moved on. It is published only if the document is still at
the version that was analysed.
-/

namespace ScriptAnalyzer

structure AnalysisRequest where
  uri : String
  path : Path
  text : Text
  version : Int

/-- The diagnostics of a document; without a version if they belong to no text. -/
structure Publication where
  uri : String
  diagnostics : List PublishedDiagnostic
  version : Option Int
deriving DecidableEq, Repr

def Publication.params (p : Publication) : Json :=
  .sparse [("uri", some (.string p.uri)),
    ("diagnostics", some (.array (p.diagnostics.map PublishedDiagnostic.toJson))),
    ("version", p.version.map .integer)]

inductive SyncAction where
  | analyze (request : AnalysisRequest)
  | markDirty (path : Path)
  | forget (path : Path)
  | publish (p : Publication)

namespace Documents

open Params

def replace (ds : Documents) (uri : String) (version : Int) (text : Text) :
    Documents × List SyncAction :=
  match Uri.filePath? uri with
  | none => (ds, [])
  | some path => (ds.put ⟨path⟩ ⟨text, version⟩, [.analyze ⟨uri, ⟨path⟩, text, version⟩])

/-- Follows an event. A saved document is analysed again, as files that it refers to may have changed.
A closed one keeps no diagnostics. -/
def apply (ds : Documents) : DocumentEvent → Documents × List SyncAction
  | .opened uri version text | .changed uri version text => ds.replace uri version text
  | .saved uri =>
    match (Uri.filePath? uri).bind fun path => (ds.find? ⟨path⟩).map (Path.mk path, ·) with
    | none => (ds, [])
    | some (path, d) => (ds, [.markDirty path, .analyze ⟨uri, path, d.text, d.version⟩])
  | .closed uri =>
    let cleared := SyncAction.publish ⟨uri, [], none⟩
    match Uri.filePath? uri with
    | none => (ds, [cleared])
    | some path => (ds.close ⟨path⟩, [.forget ⟨path⟩, cleared])

/-- What is published when an outcome comes back. After a failure the diagnostics stay as they are. -/
def publication? (ds : Documents) (r : AnalysisRequest) (outcome : Outcome CheckResult) :
    Option Publication :=
  match outcome with
  | .error _ => none
  | .ok result =>
    if (ds.find? r.path).map (·.version) = some r.version then
      some ⟨r.uri, result.published, some r.version⟩
    else none

end Documents
end ScriptAnalyzer

import Mathlib.Logic.Relation
import ScriptAnalyzer.Proofs.Analysis.Answers
import ScriptAnalyzer.Proofs.Project.Paths
import ScriptAnalyzer.Server.Session

/-!
Diagnostics that are sent with a version belong to the text that the document has under that version. This
takes that no version of a document is given to another text while an outcome for its first text can come
back: outcomes are told apart by the versions only.
-/

namespace ScriptAnalyzer

namespace AnalysisRequest

variable {r new : AnalysisRequest} {rs : List AnalysisRequest}

theorem find?_reverse_eq_some_iff {p : AnalysisRequest → Bool} : rs.reverse.find? p = some r ↔
    p r = true ∧ ∃ before after, rs = before ++ r :: after ∧ ∀ r' ∈ after, p r' = false := by
  rw [List.find?_eq_some_iff_append]
  refine and_congr_right fun _ => ⟨?_, ?_⟩
  · rintro ⟨after, before, hrs, hafter⟩
    refine ⟨before.reverse, after.reverse, ?_, fun r' hr' => ?_⟩
    · rw [List.reverse_eq_iff.mp hrs, List.reverse_append, List.reverse_cons, List.append_assoc]
      rfl
    · simpa using hafter r' (List.mem_reverse.mp hr')
  · rintro ⟨before, after, rfl, hafter⟩
    refine ⟨after.reverse, before.reverse, ?_, fun r' hr' => ?_⟩
    · rw [List.reverse_append, List.reverse_cons, List.append_assoc]
      rfl
    · simpa using hafter r' (List.mem_reverse.mp hr')

/-- The worker takes the last request of each document. -/
theorem mem_coalesce_iff : r ∈ coalesce rs ↔
    ∃ before after, rs = before ++ r :: after ∧ ∀ r' ∈ after, r'.uri ≠ r.uri := by
  induction rs with
  | nil => simp [coalesce]
  | cons first rs ih =>
    rw [coalesce, List.mem_append, Option.mem_toList, find?_reverse_eq_some_iff, List.mem_filter, ih]
    simp only [decide_eq_true_eq, decide_eq_false_iff_not, ne_eq]
    constructor
    · rintro (⟨huri, before, after, hrs, hafter⟩ | ⟨⟨before, after, hrs, hafter⟩, -⟩)
      · exact ⟨before, after, hrs, fun r' hr' => huri ▸ hafter r' hr'⟩
      · exact ⟨first :: before, after, by rw [hrs]; rfl, hafter⟩
    · rintro ⟨before, after, hrs, hafter⟩
      by_cases huri : r.uri = first.uri
      · exact .inl ⟨huri, before, after, hrs, fun r' hr' => huri ▸ hafter r' hr'⟩
      · cases before with
        | nil =>
          obtain ⟨rfl, -⟩ := List.cons.inj hrs
          exact absurd rfl huri
        | cons first' before =>
          obtain ⟨-, hrs⟩ := List.cons.inj hrs
          exact .inr ⟨⟨before, after, hrs, hafter⟩, huri⟩

theorem mem_coalesce_concat : r ∈ coalesce (rs ++ [new]) ↔ r = new ∨ r ∈ coalesce rs ∧ r.uri ≠ new.uri := by
  rw [mem_coalesce_iff, mem_coalesce_iff]
  constructor
  · rintro ⟨before, after, hrs, hafter⟩
    obtain rfl | ⟨after, last, rfl⟩ := after.eq_nil_or_concat
    · obtain ⟨-, hlast⟩ := List.append_inj' hrs rfl
      exact .inl (List.cons.inj hlast).1.symm
    · rw [List.concat_eq_append, ← List.cons_append, ← List.append_assoc] at hrs
      obtain ⟨hfront, hlast⟩ := List.append_inj' hrs rfl
      obtain rfl := (List.cons.inj hlast).1
      refine .inr ⟨⟨before, after, hfront, fun r' hr' => hafter r' ?_⟩, fun huri => ?_⟩
      · simp [hr']
      · exact hafter new (by simp) huri.symm
  · rintro (rfl | ⟨⟨before, after, rfl, hafter⟩, huri⟩)
    · exact ⟨rs, [], rfl, nofun⟩
    · refine ⟨before, after ++ [new], by simp, fun r' hr' => ?_⟩
      rcases List.mem_append.mp hr' with hr' | hr'
      · exact hafter r' hr'
      · rw [List.mem_singleton.mp hr']
        exact huri.symm

end AnalysisRequest

namespace Documents

variable {ds : Documents} {r : AnalysisRequest} {outcome : Outcome CheckResult} {publication : Publication}

theorem find?_put (ds : Documents) (p q : Path) (d : Document) :
    (ds.put p d).find? q = if p == q then some d else ds.find? q := by
  have hentries : (ds.put p d).entries = if ds.entries.any (·.1 == p) then
      ds.entries.map fun e => if e.1 == p then (e.1, d) else e else ds.entries ++ [(p, d)] := by
    unfold put
    split <;> rfl
  rw [find?, hentries, Path.find?_put]
  rfl

theorem find?_close (ds : Documents) (p q : Path) :
    (ds.close p).find? q = if p == q then none else ds.find? q :=
  Path.find?_erase ds.entries p q

theorem publication?_eq_some_iff : ds.publication? r outcome = some publication ↔
    ∃ result d, outcome = .ok result ∧ ds.find? r.path = some d ∧ d.version = r.version ∧
      publication = ⟨r.uri, result.published, some r.version⟩ := by
  cases outcome with
  | error failure => simp [publication?]
  | ok result =>
    simp only [publication?, Option.ite_none_right_eq_some, Option.map_eq_some_iff, Option.some.injEq,
      Except.ok.injEq]
    constructor
    · rintro ⟨⟨d, hd, hversion⟩, rfl⟩
      exact ⟨result, d, rfl, hd, hversion, rfl⟩
    · rintro ⟨result, d, rfl, hd, hversion, rfl⟩
      exact ⟨⟨d, hd, hversion⟩, rfl⟩

end Documents

/-- A publication, and the text that its diagnostics were computed from. -/
structure Dispatch where
  publication : Publication
  source : Option Text

namespace Dispatch

def message (m : Dispatch) : Reply := .notification "textDocument/publishDiagnostics" m.publication.params

/-- If the diagnostics have a version, they are those of the text that the document has under it. -/
def Current (ds : Documents) (m : Dispatch) : Prop :=
  ∀ version, m.publication.version = some version →
    ∃ path d, Uri.filePath? m.publication.uri = some path ∧ ds.find? ⟨path⟩ = some d ∧
      d.version = version ∧ m.source = some d.text

end Dispatch

namespace SyncAction

def request? : SyncAction → Option AnalysisRequest
  | .analyze r => some r
  | _ => none

def dispatch? : SyncAction → Option Dispatch
  | .publish p => some ⟨p, none⟩
  | _ => none

end SyncAction

/-- The text that an event gives to a document, with its version. -/
def Params.DocumentEvent.edit? : Params.DocumentEvent → Option (String × Int × Text)
  | .opened uri version text | .changed uri version text => some (uri, version, text)
  | _ => none

/-- The documents of an editor, the requests that wait for the worker, and those that it has taken and whose
outcomes have not come back. -/
structure Backlog where
  documents : Documents := {}
  queue : List AnalysisRequest := []
  taken : List AnalysisRequest := []

namespace Backlog

open Params AnalysisRequest

variable {b b' : Backlog} {event : DocumentEvent} {r : AnalysisRequest} {ds : Documents}

def notified (b : Backlog) (event : DocumentEvent) : Backlog :=
  let (documents, actions) := b.documents.apply event
  { b with documents, queue := b.queue ++ actions.filterMap SyncAction.request? }

def takes (b : Backlog) : Backlog := { b with queue := [], taken := b.taken ++ coalesce b.queue }

/-- A step, and what is sent to the editor. What has been taken can come back in any order. -/
inductive Step : Backlog → List Dispatch → Backlog → Prop
  | notified (b : Backlog) (event : DocumentEvent) :
    Step b ((b.documents.apply event).2.filterMap SyncAction.dispatch?) (b.notified event)
  | takes (b : Backlog) : Step b [] b.takes
  | comesBack (ds : Documents) (queue before after : List AnalysisRequest) (r : AnalysisRequest)
    (outcome : Outcome CheckResult) (hown : ∀ result, outcome = .ok result → result.file.text = r.text) :
    Step ⟨ds, queue, before ++ r :: after⟩
      ((ds.publication? r outcome).map (⟨·, outcome.toOption.map (·.file.text)⟩)).toList
      ⟨ds, queue, before ++ after⟩

def Moves (b b' : Backlog) : Prop := ∃ sent, Step b sent b'

/-- Whatever is sent next is current where it is sent. -/
def Right (b : Backlog) : Prop := ∀ sent b', Step b sent b' → ∀ m ∈ sent, m.Current b'.documents

/-- The event gives a version to a text while an outcome for another text with this version of the document
can still come back. -/
def Repeats (b : Backlog) (event : DocumentEvent) : Prop :=
  ∃ uri version text path r, event.edit? = some (uri, version, text) ∧ Uri.filePath? uri = some path ∧
    (r ∈ b.taken ∨ r ∈ coalesce b.queue ∧ r.uri ≠ uri) ∧ (⟨path⟩ == r.path) = true ∧
    r.version = version ∧ r.text ≠ text

/-- The request belongs to the document at its path, and if that has the version of the request, it has its
text. -/
structure Matches (ds : Documents) (r : AnalysisRequest) : Prop where
  path : Uri.filePath? r.uri = some r.path.text
  text : ∀ d, ds.find? r.path = some d → d.version = r.version → d.text = r.text

def Consistent (b : Backlog) : Prop :=
  (∀ r ∈ b.taken, Matches b.documents r) ∧ ∀ r ∈ coalesce b.queue, Matches b.documents r

theorem notified_edit {uri : String} {version : Int} {text : Text}
    (hedit : event.edit? = some (uri, version, text)) :
    b.notified event =
      let (documents, actions) := b.documents.replace uri version text
      { b with documents, queue := b.queue ++ actions.filterMap SyncAction.request? } := by
  cases event with
  | opened uri version text | changed uri version text =>
    cases hedit
    rfl
  | saved uri | closed uri => cases hedit

theorem notified_put {uri path : String} {version : Int} {text : Text}
    (hedit : event.edit? = some (uri, version, text)) (hpath : Uri.filePath? uri = some path) :
    b.notified event = { b with
      documents := b.documents.put ⟨path⟩ ⟨text, version⟩
      queue := b.queue ++ [⟨uri, ⟨path⟩, text, version⟩] } := by
  rw [notified_edit hedit]
  simp [Documents.replace, hpath, SyncAction.request?]

/-- An event gives a document a text, has one analysed again, closes one, or changes nothing. -/
theorem notified_cases (b : Backlog) (event : DocumentEvent) :
    (∃ uri version text path, event.edit? = some (uri, version, text) ∧ Uri.filePath? uri = some path) ∨
    (∃ uri path d, Uri.filePath? uri = some path ∧ b.documents.find? ⟨path⟩ = some d ∧
      b.notified event = { b with queue := b.queue ++ [⟨uri, ⟨path⟩, d.text, d.version⟩] }) ∨
    (∃ path, b.notified event = { b with documents := b.documents.close path }) ∨ b.notified event = b := by
  cases event with
  | opened uri version text | changed uri version text =>
    cases hpath : Uri.filePath? uri with
    | some path => exact .inl ⟨uri, version, text, path, rfl, hpath⟩
    | none =>
      refine .inr (.inr (.inr ?_))
      rw [notified_edit rfl]
      simp [Documents.replace, hpath]
  | saved uri =>
    cases hfound : (Uri.filePath? uri).bind fun path => (b.documents.find? ⟨path⟩).map (Path.mk path, ·) with
    | none => exact .inr (.inr (.inr (by simp [notified, Documents.apply, hfound])))
    | some found =>
      obtain ⟨path, hpath, hmap⟩ := Option.bind_eq_some_iff.mp hfound
      obtain ⟨d, hd, rfl⟩ := Option.map_eq_some_iff.mp hmap
      refine .inr (.inl ⟨uri, path, d, hpath, hd, ?_⟩)
      simp [notified, Documents.apply, hfound, List.filterMap_cons, SyncAction.request?]
  | closed uri =>
    cases hpath : Uri.filePath? uri with
    | none =>
      refine .inr (.inr (.inr ?_))
      simp [notified, Documents.apply, hpath, List.filterMap_cons, SyncAction.request?]
    | some path =>
      refine .inr (.inr (.inl ⟨⟨path⟩, ?_⟩))
      simp [notified, Documents.apply, hpath, List.filterMap_cons, SyncAction.request?]

theorem version_of_dispatched {m : Dispatch}
    (hm : m ∈ (ds.apply event).2.filterMap SyncAction.dispatch?) : m.publication.version = none := by
  cases event with
  | opened uri version text | changed uri version text =>
    simp only [Documents.apply, Documents.replace] at hm
    split at hm <;> simp [SyncAction.dispatch?] at hm
  | saved uri =>
    simp only [Documents.apply] at hm
    split at hm <;> simp [SyncAction.dispatch?] at hm
  | closed uri =>
    simp only [Documents.apply] at hm
    split at hm
    all_goals
      simp only [List.filterMap_cons, SyncAction.dispatch?, List.filterMap_nil, List.mem_singleton] at hm
      rw [hm]

namespace Matches

variable (hr : Matches ds r)

include hr

theorem put {path : Path} {d : Document} (hsame : (path == r.path) = true → d.version = r.version →
    d.text = r.text) : Matches (ds.put path d) r := by
  refine ⟨hr.path, fun d' hd' hversion => ?_⟩
  rw [Documents.find?_put] at hd'
  split at hd'
  case isTrue hpath =>
    obtain rfl := Option.some.inj hd'
    exact hsame hpath hversion
  case isFalse => exact hr.text d' hd' hversion

theorem close (path : Path) : Matches (ds.close path) r := by
  refine ⟨hr.path, fun d hd hversion => ?_⟩
  rw [Documents.find?_close] at hd
  split at hd
  · cases hd
  · exact hr.text d hd hversion

end Matches

theorem matches_of_found {uri path : String} {d : Document} (hpath : Uri.filePath? uri = some path)
    (hd : ds.find? ⟨path⟩ = some d) : Matches ds ⟨uri, ⟨path⟩, d.text, d.version⟩ := by
  refine ⟨hpath, fun d' hd' _ => ?_⟩
  rw [Option.some.inj (hd'.symm.trans hd)]

namespace Consistent

variable (hb : b.Consistent)

include hb

theorem queued {uri path : String} {d : Document} (hpath : Uri.filePath? uri = some path)
    (hd : b.documents.find? ⟨path⟩ = some d) :
    Consistent { b with queue := b.queue ++ [⟨uri, ⟨path⟩, d.text, d.version⟩] } := by
  refine ⟨hb.1, fun r hr => ?_⟩
  rcases mem_coalesce_concat.mp hr with rfl | ⟨hr, -⟩
  · exact matches_of_found hpath hd
  · exact hb.2 r hr

theorem notified (hnew : ¬b.Repeats event) : Consistent (b.notified event) := by
  obtain ⟨uri, version, text, path, hedit, hpath⟩ | ⟨uri, path, d, hpath, hd, hnotified⟩ |
    ⟨path, hnotified⟩ | hnotified := notified_cases b event
  · have hsame (r : AnalysisRequest) (hr : r ∈ b.taken ∨ r ∈ coalesce b.queue ∧ r.uri ≠ uri)
        (hkey : (⟨path⟩ == r.path) = true) (hversion : version = r.version) : text = r.text := by
      by_contra hother
      exact hnew ⟨uri, version, text, path, r, hedit, hpath, hr, hkey, hversion.symm, Ne.symm hother⟩
    rw [notified_put hedit hpath]
    refine ⟨fun r hr => (hb.1 r hr).put (hsame r (.inl hr)), fun r hr => ?_⟩
    rcases mem_coalesce_concat.mp hr with rfl | ⟨hr, huri⟩
    · refine matches_of_found (d := ⟨text, version⟩) hpath ?_
      rw [Documents.find?_put, if_pos (Path.beq_refl _)]
    · exact (hb.2 r hr).put (hsame r (.inr ⟨hr, huri⟩))
  · exact hnotified ▸ hb.queued hpath hd
  · rw [hnotified]
    exact ⟨fun r hr => (hb.1 r hr).close path, fun r hr => (hb.2 r hr).close path⟩
  · rw [hnotified]
    exact hb

theorem takes : b.takes.Consistent := by
  refine ⟨fun r hr => ?_, nofun⟩
  rcases List.mem_append.mp hr with hr | hr
  · exact hb.1 r hr
  · exact hb.2 r hr

theorem right : b.Right := by
  intro sent b' hstep m hm version hversion
  cases hstep with
  | notified b event =>
    rw [version_of_dispatched hm] at hversion
    cases hversion
  | takes b => cases hm
  | comesBack ds queue before after r outcome hown =>
    obtain ⟨publication, hpublication, rfl⟩ := Option.map_eq_some_iff.mp (Option.mem_toList.mp hm)
    obtain ⟨result, d, rfl, hd, hsame, rfl⟩ := Documents.publication?_eq_some_iff.mp hpublication
    obtain rfl := Option.some.inj hversion
    have hr : Matches ds r := hb.1 r (by simp)
    refine ⟨r.path.text, d, hr.path, hd, hsame, ?_⟩
    rw [hr.text d hd hsame, ← hown result rfl]
    rfl

end Consistent

end Backlog

/-! The steps of a session -/

namespace Session

variable {s s' : Session}

def backlog (s : Session) : Backlog :=
  { documents := s.documents, queue := s.queue, taken := (s.current.map (·.1)).toList ++ s.batch }

/-- From one session to the other, a step of the documents and the outstanding analyses has been made. -/
def Progresses (s s' : Session) : Prop :=
  ∃ sent, Backlog.Step s.backlog sent s'.backlog ∧ s'.outbox = s.outbox ++ sent.map Dispatch.message

theorem foldl_perform (actions : List SyncAction) (s : Session) :
    (actions.foldl perform s).backlog =
        { s.backlog with queue := s.queue ++ actions.filterMap SyncAction.request? } ∧
      (actions.foldl perform s).outbox =
        s.outbox ++ (actions.filterMap SyncAction.dispatch?).map Dispatch.message := by
  induction actions generalizing s with
  | nil => simp [backlog]
  | cons action actions ih =>
    obtain ⟨hbacklog, houtbox⟩ := ih (s.perform action)
    rw [List.foldl_cons, hbacklog, houtbox]
    cases action with
    | analyze r => simp [perform, backlog, List.filterMap_cons, SyncAction.request?, SyncAction.dispatch?]
    | markDirty path => exact ⟨rfl, rfl⟩
    | forget path => exact ⟨rfl, rfl⟩
    | publish p => simp [perform, publish, send, backlog, List.filterMap_cons, SyncAction.request?,
        SyncAction.dispatch?, Dispatch.message]

theorem notice_progresses {method : String} {params : Json} {event : Params.DocumentEvent}
    (hmethod : method ≠ "exit") (hevent : Params.event? method params = some event) :
    s.Progresses (s.notice method params) := by
  have hnotice : s.notice method params =
      (s.documents.apply event).2.foldl perform { s with documents := (s.documents.apply event).1 } := by
    simp only [notice, if_neg hmethod, hevent]
  obtain ⟨hbacklog, houtbox⟩ := foldl_perform (s.documents.apply event).2
    { s with documents := (s.documents.apply event).1 }
  refine ⟨_, ?_, by rw [hnotice, houtbox]⟩
  rw [hnotice, hbacklog]
  exact .notified s.backlog event

/-- The worker makes such steps, if each call gives it a result of its text. -/
theorem work?_progresses (hwork : s.work? = some s')
    (hown : ∀ r call result, s.current = some (r, call) →
      (s.coordinator.file r.path).outcome? call = some (.ok result) → result.file.text = r.text) :
    s'.backlog = s.backlog ∧ s'.outbox = s.outbox ∨ s.Progresses s' := by
  cases hcurrent : s.current with
  | none =>
    simp only [work?, hcurrent, takeWork?] at hwork
    split at hwork
    case h_1 r rest _ hbatch =>
      obtain rfl := Option.some.inj hwork
      exact .inl ⟨by simp [backlog, hcurrent, hbatch], rfl⟩
    case h_2 => cases hwork
    case h_3 hbatch _ =>
      obtain rfl := Option.some.inj hwork
      refine .inr ⟨[], ?_, by simp⟩
      have htakes := Backlog.Step.takes s.backlog
      simpa [backlog, Backlog.takes, hcurrent, hbatch] using htakes
  | some call =>
    obtain ⟨r, id⟩ := call
    simp only [work?, hcurrent] at hwork
    obtain ⟨outcome, houtcome, rfl⟩ := Option.map_eq_some_iff.mp hwork
    have hback := Backlog.Step.comesBack s.documents s.queue [] s.batch r outcome
      fun result h => hown r id result hcurrent (h ▸ houtcome)
    have hstart : s.backlog = ⟨s.documents, s.queue, [] ++ r :: s.batch⟩ := by
      rw [backlog, hcurrent]
      rfl
    rw [Progresses, hstart]
    cases hpublication : s.documents.publication? r outcome with
    | none =>
      rw [hpublication] at hback
      exact .inr ⟨[], hback, by simp⟩
    | some publication =>
      rw [hpublication] at hback
      exact .inr ⟨_, hback, rfl⟩

/-- A call in an orderly run of the analyses of a file of a project gets results of its text only. -/
theorem returned_own {options : ProjectOptions} {path : Path} {f : FileChecks CheckResult} {c : Caller CheckResult}
    {result : CheckResult} (hf : FileChecks.Orderly (FrontEnd.ofProject options path) f) (hc : c ∈ f.callers)
    (hreturned : c.waiting = .returned (.ok result)) : result.file.text = c.text := by
  obtain ⟨history, hcoherent⟩ := hf.coherent
  have hresult := hcoherent.right.returned c hc result hreturned
  rw [← Except.ok.inj hresult]
  rfl

end Session
end ScriptAnalyzer

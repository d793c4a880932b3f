import ScriptAnalyzer.Query.Answer
import ScriptAnalyzer.Proofs.Typing.Scoping

/-!
The queries about a place agree with the checker on the bindings that names there mean.
-/

namespace ScriptAnalyzer

open CheckerState

theorem SyntaxFile.parse_written (path : Path) (text : Text) (kind : SourceKind) (defines : List String) :
    Written (· ∈ (SyntaxFile.parse path text kind defines).landmarks) fun span => span.text text where
  use _ hn := (landmark_spelled path text kind defines hn rfl).written
  undotted _ hn := (landmark_spelled path text kind defines hn rfl).undotted

/-- Behind the last declaration every use of a binding has its answer. -/
theorem endState_scoped (path : Path) (text : Text) (project : ProjectOptions)
    (options : Option WarningOptions) :
    let r := checkText path text project options
    ∃ a live, Scoped (fun span => span.text text) a live (r.file.endState r.context).outline := by
  intro r
  let L : Landmark → Prop := (· ∈ r.file.landmarks)
  have hL : Written L fun span => span.text text := SyntaxFile.parse_written path text _ _
  obtain ⟨a, b, hlies, hstop⟩ := SyntaxFile.decls_lie path text r.context.kind r.context.defines
  have hvisit := r.file.endState_visited (L := L) r.context fun m hm => List.mem_append_right _ hm
  have hstart := r.file.startOutline_scoped r.context (fun span => span.text text) a
  have hnone : ∀ v ∈ ([] : List (Span × Nat)), v.1.start ≤ a.next ∧ b.stop ≤ v.1.stop := nofun
  obtain ⟨new, hscoped, -⟩ := hvisit.scoped hL hlies hstop hnone hstart
  exact ⟨b, _, hscoped⟩

namespace CheckResult

theorem find?_hideShadowed (entries : List ScopeEntry) (name : String) :
    (hideShadowed entries).find? (·.symbol.simpleName == name) =
      entries.find? (·.symbol.simpleName == name) := by
  induction entries with
  | nil => rfl
  | cons e es ih =>
    rw [hideShadowed, List.find?_cons, List.find?_cons]
    cases hname : e.symbol.simpleName == name with
    | true => rfl
    | false =>
      rw [List.find?_filter, ← ih]
      refine List.find?_congr fun e' _ => ?_
      cases hname' : e'.symbol.simpleName == name with
      | false => simp
      | true =>
        have hne : e'.symbol.simpleName ≠ e.symbol.simpleName := by
          intro heq
          rw [heq, hname] at hname'
          cases hname'
        simpa using hne

/-- A name that is bound at a place means the binding there. -/
theorem resolvePath?_of_scopeAt {r : CheckResult} {name : String} {offset : Nat} {e : ScopeEntry}
    (h : (r.scopeAt offset).find? (·.symbol.simpleName == name) = some e) :
    r.resolvePath? [name] offset = some e.symbol := by
  rw [resolvePath?, pathMeaning?, h]
  rfl

end CheckResult

namespace CheckerState

variable {s : CheckerState}

theorem scopeEntry?_any (hsimple : ∀ n ∈ s.names, String.ofList (lastSegment n.1.toList) = n.2)
    (visible : Span) (i : Nat) (name : String) :
    ( s.scopeEntry? visible i).any (·.symbol.simpleName == name) = s.isNamed name i := by
  rw [ scopeEntry?, isNamed, names, List.getElem?_map, Array.getElem?_toList, Option.any_map,
    Option.any_map]
  cases hb : s.binders[i]? with
  | none => rfl
  | some b =>
    have hmem : (b.name, b.simpleName) ∈ s.names :=
      List.mem_map_of_mem (Array.mem_toList_iff.mpr (Array.mem_of_getElem? hb))
    have hname : (s.binderSymbol b).name = b.name := by
      unfold binderSymbol
      dsimp only
      split <;> rfl
    have hsimple : String.ofList (lastSegment b.name.toList) = b.simpleName :=
      hsimple (b.name, b.simpleName) hmem
    simp only [Option.any_some, Symbol.simpleName, hname, hsimple]

/-- The first entry of a name at a place is that of the binder recorded last. -/
theorem find?_scopeAt (hsimple : ∀ n ∈ s.names, String.ofList (lastSegment n.1.toList) = n.2)
    (file : SyntaxFile) (context : Context) (options : WarningOptions) (offset : Nat) (name : String) :
    ((s.result file context options).scopeAt offset).find? (·.symbol.simpleName == name) =
      ((s.records.visible.filter (·.1.touches offset)).find? (fun v => s.isNamed name v.2)).bind
        fun v => s.scopeEntry? v.1 v.2 := by
  rw [CheckResult.scopeAt, CheckResult.find?_hideShadowed, List.find?_filter, List.find?_filter]
  change (s.records.visible.filterMap fun v => s.scopeEntry? v.1 v.2).find? _ = _
  rw [List.find?_filterMap]
  congr 1
  refine List.find?_congr fun v _ => ?_
  rw [← scopeEntry?_any hsimple v.1 v.2 name]
  cases hentry : s.scopeEntry? v.1 v.2 with
  | none => simp
  | some e =>
    obtain ⟨b, -, rfl⟩ := Option.map_eq_some_iff.mp hentry
    rfl

theorem Scoped.use_resolves {w : Span → String} {a : Cut} {live : List (Span × Nat)}
    (hscoped : Scoped w a live s.outline) (file : SyntaxFile) (context : Context)
    (options : WarningOptions) {m : Mention} {i : Nat} {offset : Nat} (hm : m ∈ s.records.mentions)
    (huse : m.isDefinition = false) (hi : m.target = .binder i) (hstart : m.span.start ≤ offset)
    (hstop : offset < m.span.stop) :
    let r := s.result file context options
    ∃ visible entry, (visible, i) ∈ s.records.visible ∧ s.scopeEntry? visible i = some entry ∧
      (r.scopeAt offset).find? (·.symbol.simpleName == w m.span) = some entry ∧
      r.resolvePath? [w m.span] offset = some entry.symbol ∧
      ⟨m.span, entry.symbol, false⟩ ∈ r.occurrences := by
  intro r
  obtain ⟨-, hanswers⟩ := hscoped.uses m hm huse i hi
  obtain ⟨visible, hfind⟩ := hanswers offset hstart hstop
  have hmem : (visible, i) ∈ s.records.visible :=
    (List.mem_filter.mp (List.mem_of_find?_eq_some hfind)).1
  have hsize : i < s.binders.size := by
    have hbound : i < s.names.length := hscoped.bound _ hmem
    rwa [names, List.length_map, Array.length_toList] at hbound
  let entry : ScopeEntry :=
    ⟨visible, s.binderSymbol s.binders[i], s.store.zonk s.binders[i].scheme.type⟩
  have hentry : s.scopeEntry? visible i = some entry := by
    rw [ scopeEntry?, Array.getElem?_eq_getElem hsize, Option.map_some]
  have hscope : (r.scopeAt offset).find? (·.symbol.simpleName == w m.span) = some entry := by
    have hsimple : ∀ n ∈ s.names, String.ofList (lastSegment n.1.toList) = n.2 := hscoped.simple
    have hfind : (s.records.visible.filter (·.1.touches offset)).find?
      (fun v => s.isNamed (w m.span) v.2) = some (visible, i) := hfind
    rw [find?_scopeAt hsimple, hfind]
    exact hentry
  refine ⟨visible, entry, hmem, hentry, hscope, CheckResult.resolvePath?_of_scopeAt hscope, ?_⟩
  refine List.mem_filterMap.mpr ⟨m, List.mem_reverse.mpr hm, ?_⟩
  rw [occurrence?, hi, targetSymbol?, Array.getElem?_eq_getElem hsize, huse]
  rfl

end CheckerState

/-- Wherever the checker found that a name means a binding, the first entry of this name in scope at
any place in the name is that of the binding, so that the name resolves to it. -/
theorem checkText_use_resolves (path : Path) (text : Text) (project : ProjectOptions)
    (options : Option WarningOptions) {m : Mention} {i : Nat} {offset : Nat}
    (hm : m ∈ ((checkText path text project options).file.endState
      (checkText path text project options).context).records.mentions)
    (huse : m.isDefinition = false) (hi : m.target = .binder i)
    (hstart : m.span.start ≤ offset) (hstop : offset < m.span.stop) :
    let r := checkText path text project options
    let s := r.file.endState r.context
    ∃ visible entry, (visible, i) ∈ s.records.visible ∧ s.scopeEntry? visible i = some entry ∧
      (r.scopeAt offset).find? (·.symbol.simpleName == m.span.text text) = some entry ∧
      r.resolvePath? [m.span.text text] offset = some entry.symbol ∧
      ⟨m.span, entry.symbol, false⟩ ∈ r.occurrences := by
  intro r s
  obtain ⟨a, live, hscoped⟩ := endState_scoped path text project options
  let found := s.result r.file r.context (options.getD r.context.warningOptions)
  have hr : r = { found with diagnostics := r.diagnostics } := checkText_eq path text project options
  have hbindings : r.bindings = found.bindings := by rw [hr]
  have hoccurrences : r.occurrences = found.occurrences := by rw [hr]
  obtain ⟨visible, entry, hmem, hentry, hfirst, -, hoccurs⟩ :=
    hscoped.use_resolves r.file r.context (options.getD r.context.warningOptions) hm huse hi hstart hstop
  have hscope : r.scopeAt offset = found.scopeAt offset := by
    rw [CheckResult.scopeAt, CheckResult.scopeAt, hbindings]
  rw [← hscope] at hfirst
  rw [← hoccurrences] at hoccurs
  exact ⟨visible, entry, hmem, hentry, hfirst, CheckResult.resolvePath?_of_scopeAt hfirst, hoccurs⟩

/-- The index of the binder that a name means. -/
def Target.binder? : Target → Option Nat
  | .binder i => some i
  | .fixed _ => none

theorem Target.eq_binder {target : Target} {i : Nat} (h : target.binder? = some i) : target = .binder i := by
  cases target with
  | binder j => rw [Option.some.inj h]
  | fixed symbol => cases h

/-- A parameter that hides a binding of the file. -/
theorem hidingParameter_use_resolves :
    let r := checkText ⟨"names.glx"⟩ "let x = 1\nlet f x = x".toList {} none
    ∃ e, (r.scopeAt 20).find? (·.symbol.simpleName == "x") = some e ∧ e.visible = ⟨20, 21⟩ ∧
      r.resolvePath? ["x"] 20 = some e.symbol := by
  intro r
  let s := r.file.endState r.context
  have hshown : s.records.mentions[1]?.map (fun m => (m.span, m.isDefinition, m.target.binder?)) =
      some (⟨20, 21⟩, false, some 1) := by decide +kernel
  obtain ⟨m, hm, heq⟩ := Option.map_eq_some_iff.mp hshown
  simp only [Prod.mk.injEq] at heq
  obtain ⟨hspan, huse, hbinder⟩ := heq
  have hi : m.target = .binder 1 := Target.eq_binder hbinder
  obtain ⟨visible, entry, -, -, hscope, hresolve, -⟩ := checkText_use_resolves ⟨"names.glx"⟩
    "let x = 1\nlet f x = x".toList {} none (List.mem_of_getElem? hm) huse hi
    (by rw [hspan]) (by rw [hspan]; decide)
  have hwritten : m.span.text "let x = 1\nlet f x = x".toList = "x" := by rw [hspan]; decide
  rw [hwritten] at hscope hresolve
  have hvisible : ((r.scopeAt 20).find? (·.symbol.simpleName == "x")).map (·.visible) =
      some ⟨20, 21⟩ := by decide +kernel
  rw [hscope] at hvisible
  exact ⟨entry, hscope, Option.some.inj hvisible, hresolve⟩

end ScriptAnalyzer

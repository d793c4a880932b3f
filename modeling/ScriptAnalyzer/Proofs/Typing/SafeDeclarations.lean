import ScriptAnalyzer.Proofs.Project.Problems
import ScriptAnalyzer.Proofs.Syntax.ValidTrees
import ScriptAnalyzer.Proofs.Typing.SafeExpressions
import ScriptAnalyzer.Proofs.Typing.Warnings

/-!
Declarations are safe, and so is a whole file. Main statement: whatever the text is, it is cut between
characters, checking it asks for nothing that is not there, and every place in the result is a part of
the text.
-/

namespace ScriptAnalyzer

open Referring

variable {n : Nat} {k k' : Extent} {s : CheckerState} {span : Span}

/-! Entities of the file -/

namespace Entities

variable {es : Entities} {f : Entity → Entity}

theorem within_declare {e : Entity} (hes : Within k es.all) (he : Within k e) : Within k (es.declare e).all :=
  within_cons.mpr ⟨he, hes⟩

theorem within_modifyFirst (path : String) {declared : List Entity} (hes : Within k declared)
    (hf : ∀ e, Within k e → Within k (f e)) : Within k (modifyFirst path f declared) := by
  induction declared with
  | nil => exact within_nil
  | cons e es ih =>
    obtain ⟨he, hes⟩ := within_cons.mp hes
    rw [modifyFirst]
    split
    · exact within_cons.mpr ⟨hf e he, hes⟩
    · exact within_cons.mpr ⟨he, ih hes⟩

theorem within_modifyDeclared (path : String) (hes : Within k es.all)
    (hf : ∀ e, Within k e → Within k (f e)) : Within k (es.modifyDeclared path f).all := by
  obtain ⟨hdeclared, hlibraries⟩ := within_append.mp hes
  exact within_append.mpr ⟨within_modifyFirst path hdeclared hf, hlibraries⟩

end Entities

namespace Checker

theorem publish_safe {binder : Binder} (h : Within k binder) : Safe n k (publish binder) := by
  refine .modify fun s hs hk => ⟨hs.of_entities ?_, le_refl _⟩
  refine Entities.within_modifyDeclared _ hs.entities fun e he => ⟨?_, he.2⟩
  refine within_append.mpr ⟨fun m hm => he.1 m (List.mem_filter.mp hm).1, within_singleton.mpr ?_⟩
  exact ⟨mono (α := Scheme) hk h.1, within_some.mpr (mono (α := Span) hk h.2)⟩

theorem publishAll_safe {bound : List Nat} (h : Within k bound) (declared : List String) :
    Safe n k (publishAll bound declared) := by
  induction bound generalizing k declared with
  | nil => exact .pure fun _ _ => trivial
  | cons index bound ih =>
    obtain ⟨hindex, hbound⟩ := within_cons.mp h
    refine (binderAt_safe hindex).bind fun binder? k₁ hk hbinder => ?_
    have hbound := mono hk hbound
    cases binder? with
    | none => exact ih hbound declared
    | some binder =>
      have hbinder := within_some.mp hbinder
      refine .getBind fun s hs hk₁ => ?_
      have hpublished : Safe n (s.extent n) (do
          publish binder
          publishAll bound (binder.simpleName :: declared)) :=
        (publish_safe (mono hk₁ hbinder)).next (ih (mono hk₁ hbound) _)
      split
      · exact (report_safe _ (mono (α := Span) hk₁ hbinder.2)).next hpublished
      · exact hpublished

/-- The type variables of the last declaration are forgotten. -/
theorem forgetTypeVars_safe : Safe n k (modify fun s => { s with typeVars := [] }) :=
  .modify fun _ hs _ => ⟨{ hs with typeVars := within_nil }, le_refl _⟩

theorem checkModuleBinding_safe {b : Binding} {stop : Nat} (hhead : Within k b.toLetHead)
    (hbody : Within k b.body) (hends : b.span.stop ≤ stop) (hstop : stop ≤ k.bytes)
    (declared : List String) : Safe n k (checkModuleBinding b stop declared) := by
  refine forgetTypeVars_safe.next ?_
  have hvalue : SafeValue n k fun expected => valueOf b.body (expr b.body expected) :=
    (expr_safe n k b.body hbody).value hbody
  have hscope : Within k (Span.mk b.toLetHead.span.stop stop) := ⟨hends, hstop⟩
  refine (checkBinding_safe hhead (Expr.within_span hbody) hscope hvalue true).bind fun bound _ _ hbound => ?_
  exact publishAll_safe hbound declared

theorem checkOpen_safe {name : LongIdent} {stop : Nat} (hname : Within k name) (hends : span.stop ≤ stop)
    (hstop : stop ≤ k.bytes) : Safe n k (checkOpen span name stop) := by
  obtain ⟨hspan, hparts⟩ := LongIdent.within_iff.mp hname
  refine .getBind fun s hs hk => ?_
  split
  case h_1 => exact report_safe _ (mono hk hspan)
  case h_2 path _ =>
    refine (mentionEntity_safe (mono hk hparts) path).next (.next ?_ ?_)
    · exact .modify fun s₁ hs₁ _ => ⟨hs₁.of_scope hs₁.scope, le_refl _⟩
    · exact recordRegion_safe ⟨hends, hstop.trans hk.2.2⟩ path

theorem declareEntity_safe {e : Entity} (h : Within k e) :
    Safe n k (modify fun s => { s with entities := s.entities.declare e }) :=
  .modify fun _ hs hk => ⟨hs.of_entities (Entities.within_declare hs.entities (mono hk h)), le_refl _⟩

theorem modifyDeclared_safe {f : Entity → Entity} (path : String)
    (hf : ∀ k', k ≤ k' → ∀ e, Within k' e → Within k' (f e)) :
    Safe n k (modify fun s => { s with entities := s.entities.modifyDeclared path f }) :=
  .modify fun _ hs hk =>
    ⟨hs.of_entities (Entities.within_modifyDeclared path hs.entities (hf _ hk)), le_refl _⟩

theorem declareNamespaces_safe (path before : String) (segments : List String) :
    Safe n k (declareNamespaces path before segments) := by
  induction segments generalizing k before with
  | nil => exact .pure trivial
  | cons segment segments ih =>
    unfold declareNamespaces
    refine .getBind fun s hs hk => ?_
    dsimp only
    generalize (if before.isEmpty = true then segment else before ++ "." ++ segment) = inner
    split
    · exact (declareEntity_safe ⟨within_nil, within_nil, within_none⟩).next (ih _)
    · exact ih _

theorem enterModule_safe {name : Option Span} (path : String) (hname : Within k name)
    (hspan : Within k span) : Safe n k (enterModule path name span) := by
  have hentity : Within k ({ path, kind := .module, span := name } : Entity) :=
    ⟨within_nil, within_nil, hname⟩
  have henter : Safe n k (do
      modify fun s => { s with
        entities := s.entities.declare { path, kind := .module, span := name }
        scope.modulePath := pathSegments path }
      recordRegion span path) := by
    refine .next (.modify ?_) (recordRegion_safe hspan path)
    intro s hs hk
    have hdeclared := hs.of_entities (Entities.within_declare hs.entities (mono hk hentity))
    exact ⟨hdeclared.of_scope hdeclared.scope, le_refl _⟩
  refine (declareNamespaces_safe path "" _).next ?_
  cases name with
  | none => exact henter
  | some place => exact (declare_safe (within_some.mp hname) hentity.2.2).next henter

theorem recordFields_safe (path : String) {fields : List (Ident × TypeExpr)}
    (h : Within k (fields.flatMap fun f => f.1.span :: f.2.spans)) :
    Safe n k (recordFields path fields) := by
  induction fields generalizing k with
  | nil => exact .pure within_nil
  | cons field fields ih =>
    obtain ⟨name, written⟩ := field
    rw [List.flatMap_cons, within_append] at h
    obtain ⟨hfield, hfields⟩ := h
    obtain ⟨hname, hwritten⟩ := within_cons.mp hfield
    refine (annotation_safe written hwritten).bind fun t k₁ hk ht => ?_
    have hm : Within k₁ ({ name := name.text, kind := .field t, span := some name.span } : Member) :=
      ⟨ht, within_some.mpr (mono hk hname)⟩
    refine (declare_safe (mono hk hname) (Member.within_symbol hm path)).next ?_
    refine (ih (mono hk hfields)).bind fun ms k₂ hk₂ hms => ?_
    exact .pure (within_cons.mpr ⟨mono (α := Member) hk₂ hm, hms⟩)

theorem checkType_safe {name : Ident} {body : TypeBody} (hname : Within k name)
    (hbody : Within k body.spans) : Safe n k (checkType name body) := by
  refine forgetTypeVars_safe.next (.getBind fun s hs hk => ?_)
  have hname : Within (s.extent n) name.span := mono (α := Span) hk hname
  cases body with
  | record fields =>
    refine (declareEntity_safe ⟨within_nil, within_nil, within_some.mpr hname⟩).next ?_
    refine (recordFields_safe _ (mono hk hbody)).bind fun members k₂ hk₂ hmembers => ?_
    refine .next (modifyDeclared_safe _ ?_) ?_
    · exact fun k₃ hk₃ e he => ⟨mono (α := List Member) hk₃ hmembers, he.2⟩
    refine .getBind fun s₄ hs₄ hk₄ => ?_
    split
    case h_1 entity hentity =>
      exact declare_safe (mono (hk₂.trans hk₄) hname) (hs₄.entity hentity).2.2
    case h_2 => exact .pure trivial
  | abbreviation written =>
    refine (annotation_safe written (mono hk hbody)).bind fun t k₂ hk₂ ht => ?_
    have hname := mono hk₂ hname
    refine (declare_safe hname (within_some.mpr hname)).next (.modify fun s₃ hs₃ hk₃ => ?_)
    exact ⟨{ hs₃ with
      abbreviations := within_cons.mpr ⟨⟨trivial, mono (α := Ty) hk₃ ht⟩, hs₃.abbreviations⟩ }, le_refl _⟩

mutual

theorem decl_safe (kind : SourceKind) {k : Extent} {stop : Nat} (hstop : stop ≤ k.bytes) (d : Decl)
    (h : Within k d.spans) (hends : d.EndsScopes stop) (declared : List String) :
    Safe n k (decl kind stop d declared) := by
  match d with
  | .binding span b =>
    obtain ⟨hhead, hbody⟩ := within_append.mp (within_cons.mp h).2
    exact checkModuleBinding_safe hhead ⟨hbody, hends.2⟩ hends.1 hstop declared
  | .open span name =>
    exact (checkOpen_safe (within_cons.mp h).2 hends hstop).next (.pure fun _ _ => trivial)
  | .module span name members =>
    obtain ⟨hspan, hinside⟩ := within_cons.mp h
    obtain ⟨hname, hmembers⟩ := within_cons.mp hinside
    refine .next (.withScope (.getBind fun s hs hk => ?_)) (.pure fun _ _ => trivial)
    refine (enterModule_safe _ (within_some.mpr (mono hk hname)) (mono hk hspan)).next ?_
    exact decls_safe kind (mono hk hspan).inside members (mono hk hmembers) hends []
  | .type span name body =>
    obtain ⟨hname, hbody⟩ := within_cons.mp (within_cons.mp h).2
    exact (checkType_safe hname hbody).next (.pure fun _ _ => trivial)
  | .expr span e =>
    have he : Within k e := ⟨(within_cons.mp h).2, hends⟩
    refine ((expr_safe n k e he).type he).bind fun t k₁ hk ht => ?_
    split
    · exact (warnIgnored_safe ht (mono hk (Expr.within_span he))).next (.pure fun _ _ => trivial)
    · exact .pure fun _ _ => trivial
  | .directive _ _ | .error _ => exact .pure fun _ _ => trivial

theorem decls_safe (kind : SourceKind) {k : Extent} {stop : Nat} (hstop : stop ≤ k.bytes) (ds : List Decl)
    (h : Within k (Decl.spansOfAll ds)) (hends : Decl.AllEndScopes stop ds) (declared : List String) :
    Safe n k (decls kind stop ds declared) := by
  match ds with
  | [] => exact .pure trivial
  | d :: ds =>
    obtain ⟨hd, hds⟩ := within_append.mp h
    refine (decl_safe kind hstop d hd hends.1 declared).bind fun declared k₁ hk _ => ?_
    exact decls_safe kind (hstop.trans hk.2.2) ds (mono hk hds) hends.2 declared

end

theorem within_spans_of_mem {ds : List Decl} (h : Within k (Decl.spansOfAll ds)) :
    ∀ d ∈ ds, Within k d.spans := by
  induction ds with
  | nil => exact nofun
  | cons d ds ih =>
    obtain ⟨hd, hds⟩ := within_append.mp h
    exact List.forall_mem_cons.mpr ⟨hd, ih hds⟩

theorem referenceSite_inside {name : String} {f : SyntaxFile} (h : Within k (Decl.spansOfAll f.decls))
    (hsite : referenceSite? name f = some span) : Within k span := by
  obtain ⟨d, hd, harg⟩ := List.exists_of_findSome?_eq_some hsite
  split at harg
  case h_1 site directive =>
    split at harg
    · obtain ⟨arg, hfound, rfl⟩ := Option.map_eq_some_iff.mp harg
      have hargs := (within_cons.mp (within_cons.mp (within_cons.mp (within_spans_of_mem h _ hd)).2).2).2
      exact hargs _ (List.mem_map_of_mem (List.mem_of_find?_eq_some hfound))
    · cases harg
  case h_2 => cases harg

theorem checkReferences_safe {f : SyntaxFile} (h : Within k (Decl.spansOfAll f.decls)) (context : Context) :
    Safe n k (checkReferences f context) := by
  refine .forM fun reference _ => ?_
  split
  case h_1 name _ =>
    split
    · exact .pure trivial
    · refine report_safe _ ?_
      cases hsite : referenceSite? name f with
      | none => exact ⟨Nat.le_refl 0, Nat.zero_le _⟩
      | some span => exact referenceSite_inside h hsite
  case h_2 => exact .pure trivial

theorem file_safe {f : SyntaxFile} {context : Context} (h : Within k f.spans)
    (hends : Decl.AllEndScopes f.text.byteSize f.decls) (hsize : f.text.byteSize ≤ k.bytes)
    (hproblems : context.ProblemsInside k.bytes) : Safe n k (file f context) := by
  obtain ⟨hheader, hdecls⟩ := within_append.mp h
  refine (checkReferences_safe hdecls context).next (.next (.forM fun p hp => ?_) ?_)
  · exact report_safe _ (hproblems p hp)
  have hchecks : Safe n k (decls f.kind f.text.byteSize f.decls []) :=
    decls_safe f.kind hsize f.decls hdecls hends []
  dsimp only
  split
  case h_1 path _ =>
    refine (enterModule_safe path ?_ ⟨Nat.zero_le _, hsize⟩).next hchecks
    cases hname : f.header with
    | none => exact within_none
    | some name =>
      rw [hname] at hheader
      exact within_some.mpr (within_cons.mp hheader).1
  case h_2 => exact hchecks

end Checker

/-! Results -/

/-- Every place in the result is a part of a text of this size. -/
structure CheckResult.Inside (size : Nat) (r : CheckResult) : Prop where
  symbols : ∀ d ∈ r.symbols, d.1.Inside size
  diagnostics : ∀ d ∈ r.diagnostics, d.span.Inside size
  occurrences : ∀ o ∈ r.occurrences, o.span.Inside size
  bindings : ∀ b ∈ r.bindings, b.visible.Inside size
  regions : ∀ region ∈ r.regions, region.span.Inside size
  members : ∀ m ∈ r.members, m.dot.Inside size ∧ (∀ name ∈ m.name, name.Inside size) ∧ m.span.Inside size
  calls : ∀ c ∈ r.calls, c.callee.Inside size ∧ c.parens.Inside size

namespace CheckerState

theorem Sound.result_inside (hs : s.Sound n) (file : SyntaxFile) (context : Context)
    (options : WarningOptions) : (s.result file context options).Inside n := by
  have hrecords := hs.records
  refine ⟨fun d hd => ?_, fun d hd => ?_, fun o ho => ?_, fun b hb => ?_, hrecords.regions, fun m hm => ?_,
    fun c hc => hrecords.calls c (List.mem_reverse.mp hc)⟩
  · obtain ⟨declared, hmem, hsymbol⟩ := List.mem_filterMap.mp hd
    obtain ⟨symbol, -, rfl⟩ := Option.map_eq_some_iff.mp hsymbol
    exact (hrecords.declarations declared (List.mem_reverse.mp hmem)).1
  · obtain ⟨e, he, rfl⟩ := List.mem_map.mp (List.mem_mergeSort.mp hd)
    exact hrecords.errors e (List.mem_reverse.mp (List.mem_filter.mp he).1)
  · obtain ⟨mention, hmem, hsymbol⟩ := List.mem_filterMap.mp ho
    obtain ⟨symbol, -, rfl⟩ := Option.map_eq_some_iff.mp hsymbol
    exact (hrecords.mentions mention (List.mem_reverse.mp hmem)).1
  · obtain ⟨visible, hmem, hentry⟩ := List.mem_filterMap.mp hb
    obtain ⟨binder, -, rfl⟩ := Option.map_eq_some_iff.mp hentry
    exact (hrecords.visible visible hmem).1
  · obtain ⟨site, hmem, rfl⟩ := List.mem_map.mp hm
    have hsite := hrecords.members site (List.mem_reverse.mp hmem)
    unfold finalMember
    split <;> exact hsite

/-- Nothing is there in front of a file but what the libraries have, which refers to nothing. -/
theorem sound_emptyState (n : Nat) (context : Context) (options : WarningOptions) :
    (context.emptyState options).Sound n where
  binders := nofun
  entities := Catalog.within_entitiesOf context.libraryNames
  scope := within_nil
  typeVars := within_nil
  abbreviations := within_nil
  records := ⟨nofun, nofun, nofun, nofun, nofun, nofun, nofun⟩
  faultless := rfl
  store := ⟨⟨id, fun v t hv => by simp [TypeStore.binding?, Context.emptyState] at hv⟩,
    fun v t hv => by simp [TypeStore.binding?, Context.emptyState] at hv⟩

end CheckerState

namespace SyntaxFile

/-- Wherever a tree or a syntax error stands, the text can be cut there. -/
theorem fits_validIn {text : Text} {defines : List String} (h : span.Fits (sites text defines)) :
    span.ValidIn text :=
  ⟨h.ordered, Text.le_byteSize_of_isBoundary h.stop, h.start, h.stop⟩

theorem endState_sound (path : Path) (text : Text) (kind : SourceKind) (defines : List String)
    (context : Context) (options : WarningOptions) (hproblems : context.ProblemsInside text.byteSize) :
    CheckerState.Sound text.byteSize
      ((Checker.file (parse path text kind defines) context).run (context.emptyState options)).2 := by
  have hstart := CheckerState.sound_emptyState text.byteSize context options
  have hspans : ∀ span ∈ (parse path text kind defines).spans, span.Inside text.byteSize :=
    fun span hspan => (fits_validIn ((parse_fits path text kind defines).1 span hspan)).toInside
  exact (Checker.file_safe hspans (parse_endsScopes path text kind defines) (Nat.le_refl _) hproblems _
    hstart (le_refl _)).1

end SyntaxFile

/-- Whatever the text and the options are, it is cut between characters, checking it asks for no variable,
binder or parameter that is not there, no search along bound variables is endless, and every place in the
tree and in the result is a part of the text. -/
theorem checkText_faultless (path : Path) (text : Text) (project : ProjectOptions)
    (options : Option WarningOptions) :
    let r := checkText path text project options
    let options := options.getD r.context.warningOptions
    let s := ((Checker.file r.file r.context).run (r.context.emptyState options)).2
    r = s.result r.file r.context options ∧ s.faults = [] ∧
      (∀ v, ¬Relation.TransGen s.store.Mentions v v) ∧
      (∀ (o : Overload) args store, o.acceptsByNumber? args store = some (o.accepts args store)) ∧
      (∀ t ∈ Token.tokens text, t.2.ValidIn text) ∧
      (∀ span ∈ r.file.spans, span.ValidIn text) ∧ (∀ e ∈ r.file.errors, e.span.ValidIn text) ∧
      r.Inside text.byteSize := by
  intro r options s
  have hs : s.Sound text.byteSize := SyntaxFile.endState_sound path text r.context.kind r.context.defines
    r.context options (Context.resolve_problems path text project)
  obtain ⟨hspans, herrors, -⟩ := SyntaxFile.parse_fits path text r.context.kind r.context.defines
  refine ⟨rfl, hs.faultless, hs.store.acyclic.not_reached, Overload.acceptsByNumber_eq,
    fun t => Token.validIn_of_mem, fun span hspan => SyntaxFile.fits_validIn (hspans span hspan),
    fun e he => SyntaxFile.fits_validIn (herrors e he), ?_⟩
  exact hs.result_inside r.file r.context options

end ScriptAnalyzer

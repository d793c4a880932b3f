import ScriptAnalyzer.Proofs.Typing.ExpressionDues

/-!
What the declarations of a file put on record, and in what state the checker leaves the entities: those of
the file stand where its modules and types are declared.
-/

namespace ScriptAnalyzer

namespace Decl

mutual

def dues : Decl → List Due
  | binding _ b => b.toLetHead.dues ++ b.body.dues
  | module _ _ ds => duesOfAll ds
  | expr _ e => e.dues
  | «open» _ _ | type _ _ _ | directive _ _ | error _ => []

def duesOfAll : List Decl → List Due
  | [] => []
  | d :: ds => dues d ++ duesOfAll ds

end

end Decl

/-- Among the names at the place there is none but one that is looked up or bound, and no record starts there.
What is bound has a name as the text spells it. -/
structure Clear (x : Span) (ms : List Landmark) (es : List Expr) : Prop where
  landmarks : ∀ m ∈ ms, m.Spares x
  names : ∀ n, .binding n ∈ ms → IsSimpleName n.text
  records : ∀ e ∈ es, e.NoRecordAt x

theorem Clear.sub {x : Span} {ms ms' : List Landmark} {es es' : List Expr} (h : Clear x ms es)
    (hms : ms' ⊆ ms) (hes : es' ⊆ es) : Clear x ms' es' :=
  ⟨fun m hm => h.landmarks m (hms hm), fun n hn => h.names n (hms hn), fun e he => h.records e (hes he)⟩

namespace CheckerState

variable {x : Span} {dues dues' : List Due} {s s₁ s' : CheckerState}

/-- From `s` to `s'` the dues are put on record, and entities come in where there is one around them. -/
structure Tallies (x : Span) (dues : List Due) (s s' : CheckerState) : Prop where
  discharges : s.Discharges x dues s'
  rooted : s.Rooted → s'.Rooted
  paths : s.entities.paths ⊆ s'.entities.paths

namespace Tallies

theorem trans (h : Tallies x dues s s₁) (h' : Tallies x dues' s₁ s') : Tallies x (dues ++ dues') s s' :=
  ⟨h.discharges.trans h.rooted h'.discharges, h'.rooted ∘ h.rooted, List.Subset.trans h.paths h'.paths⟩

theorem of_stays (h : s.Discharges x dues s' ∧ s.Stays s') : Tallies x dues s s' :=
  ⟨h.1, h.2.rooted, by rw [h.2.entities]; exact List.Subset.refl _⟩

theorem declare {name : String} (hname : IsSimpleName name) {e : Entity} (he : e.path = s.qualified name) :
    Tallies x [] s (s.declare e) :=
  ⟨{ Discharges.refl x s with }, fun h => h.declare hname he, List.subset_cons_self _ _⟩

theorem modifyDeclared (x : Span) (s : CheckerState) (path : String) {f : Entity → Entity}
    (hf : ∀ e, (f e).path = e.path) :
    Tallies x [] s { s with entities := s.entities.modifyDeclared path f } where
  discharges := { Discharges.refl x s with }
  rooted h := h.modifyDeclared path hf
  paths := by
    rw [Entities.paths_modifyDeclared _ _ hf]
    exact List.Subset.refl _

theorem declareAt (x span : Span) (symbol : Symbol) (s : CheckerState) :
    Tallies x [] s (s.declareAt span (.fixed symbol)) :=
  .of_stays ⟨.declareAt x span symbol s, ⟨rfl, rfl, rfl⟩⟩

theorem enterModule (x : Span) (s : CheckerState) (path : String) (name : Option Span) (region : Span) :
    s.Discharges x [] (s.enterModule path name region) ∧
      s.entities.paths ⊆ (s.enterModule path name region).entities.paths := by
  have hspaces := s.entities.paths_withNamespaces path "" (pathSegments path)
  have hentities : (s.enterModule path name region).entities.paths =
      path :: (s.entities.withNamespaces path "" (pathSegments path)).paths := by
    cases name <;> rfl
  refine ⟨?_, hentities ▸ List.subset_cons_of_subset _ hspaces⟩
  cases name with
  | none => exact { Discharges.refl x s with }
  | some span => exact { Discharges.declareAt x span (Entity.symbol { path, kind := .module, span }) s with }

end Tallies
end CheckerState

namespace Checker

open CheckerState

variable {α β : Type} {x : Span} {dues dues' : List Due} {p : Checker α} {f : α → Checker β}

def Tallies (p : Checker α) (x : Span) (dues : List Due) : Prop :=
  ∀ s, p.Yields s fun _ s' => s.Tallies x dues s'

theorem Pays.tallies (hp : p.Pays x dues) : p.Tallies x dues := fun s => (hp s).mono fun _ _ => .of_stays

theorem Silent.tallies (hp : Silent p) : p.Tallies x [] := hp.pays.tallies

theorem Tallies.bind (hp : p.Tallies x dues) (hf : ∀ a, (f a).Tallies x dues') :
    (p >>= f).Tallies x (dues ++ dues') := fun s =>
  (hp s).bind fun a s₁ h₁ => (hf a s₁).mono fun _ _ h₂ => h₁.trans h₂

theorem Tallies.andThen (hp : p.Tallies x dues) (hf : ∀ a, (f a).Tallies x []) :
    (p >>= f).Tallies x dues := by
  simpa using hp.bind hf

theorem Tallies.before (hp : p.Tallies x []) (hf : ∀ a, (f a).Tallies x dues) :
    (p >>= f).Tallies x dues :=
  hp.bind hf

theorem Tallies.getBind {f : CheckerState → Checker β} (hf : ∀ s, (f s).Tallies x dues) :
    (get >>= f).Tallies x dues :=
  fun s => hf s s

/-! Bindings -/

theorem publish_tallies (b : Binder) : (publish b).Tallies x [] := fun s =>
  .modifyDeclared x s _ fun _ => rfl

theorem publishAll_tallies (bound : List Nat) (declared : List String) :
    (publishAll bound declared).Tallies x [] := by
  induction bound generalizing declared with
  | nil => exact (silent_pure _).tallies
  | cons i bound ih =>
    refine (silent_binderAt i).tallies.bind fun _ => ?_
    split
    · exact ih declared
    · refine .getBind fun s => ?_
      split
      · exact (silent_report _ rfl).tallies.andThen fun _ => (publish_tallies _).andThen fun _ => ih _
      · exact (publish_tallies _).andThen fun _ => ih _

theorem clearTypeVars_tallies : (modify fun s => { s with typeVars := [] } : Checker Unit).Tallies x [] :=
  fun s => ⟨{ Discharges.refl x s with }, fun h => h.of_same rfl rfl rfl, List.Subset.refl _⟩

theorem checkModuleBinding_tallies {b : Binding} (hhead : ∀ m ∈ b.toLetHead.landmarks, m.Spares x)
    (hbody : b.body.Clear x) (stop : Nat) (declared : List String) :
    (checkModuleBinding b stop declared).Tallies x (b.toLetHead.dues ++ b.body.dues) := by
  refine clearTypeVars_tallies.before fun _ => ?_
  have hvalue := (expr_settles b.body hbody).value
  exact (checkBinding_pays hhead hvalue).tallies.andThen fun bound => publishAll_tallies bound declared

/-! Namespaces, modules and types -/

theorem checkOpen_tallies (span : Span) {name : LongIdent} (h : ∀ n ∈ name.parts, n.Away x) (stop : Nat) :
    (checkOpen span name stop).Tallies x [] := by
  intro s
  simp only [checkOpen, yields_bind, yields_get]
  split
  case h_1 => exact (report_pays _ (LongIdent.span_ne_of_away h)).tallies s
  case h_2 path hpath =>
    rw [yields_bind]
    refine (mentionSegments_pays _ h s).mono fun _ s₁ h₁ => ?_
    obtain ⟨hdischarges, hstays⟩ := h₁
    refine ⟨{ hdischarges with }, fun hs => ?_, ?_⟩
    · refine (hs.opening hpath ⟨span.stop, stop⟩).of_same hstays.entities ?_ hstays.modulePath
      exact congrArg (path :: ·) hstays.opens
    · rw [← hstays.entities]
      exact List.Subset.refl _

theorem recordFields_pays (path : String) {fields : List (Ident × TypeExpr)}
    (h : ∀ m ∈ (TypeBody.record fields).landmarks, m.Spares x) : (recordFields path fields).Pays x [] := by
  induction fields with
  | nil => exact (silent_pure _).pays
  | cons field fields ih =>
    obtain ⟨name, written⟩ := field
    obtain ⟨hfield, hfields⟩ := List.forall_mem_append.mp h
    have hwritten := away_of_spares (List.forall_mem_cons.mp hfield).2
    refine (annotation_pays written hwritten).bind fun t => ?_
    have hdeclare (symbol : Symbol) : (declare name.span (.fixed symbol)).Pays x [] := fun s =>
      ⟨.declareAt x name.span symbol s, ⟨rfl, rfl, rfl⟩⟩
    exact (hdeclare _).bind fun _ => (ih hfields).andThen fun _ => silent_pure _

theorem checkType_tallies {name : Ident} (hname : IsSimpleName name.text) {body : TypeBody}
    (h : ∀ m ∈ body.landmarks, m.Spares x) : (checkType name body).Tallies x [] := by
  refine clearTypeVars_tallies.before fun _ => fun s => ?_
  rw [yields_bind, yields_get]
  cases body with
  | record fields =>
    simp only [yields_bind, yields_modify, yields_get]
    refine (recordFields_pays _ h _).mono fun ms s₁ h₁ => ?_
    have hdeclare : s.Tallies x [] (s.declare (.ofType (s.qualified name.text) name.span [])) := .declare hname rfl
    have hfields := (hdeclare.trans (.of_stays h₁)).trans
      (.modifyDeclared x s₁ (s.qualified name.text) (f := ({ · with members := ms })) fun _ => rfl)
    split
    · exact hfields.trans (.declareAt x name.span _ _)
    · exact hfields
  | abbreviation written =>
    rw [yields_bind]
    refine (annotation_pays written (away_of_spares h) s).mono fun t s₁ h₁ => ?_
    have hdeclare := (Tallies.of_stays h₁).trans (.declareAt x name.span
      { name := s.qualified name.text, kind := .type, signature := "type " ++ name.text ++ " = " ++ t.render
        span := some name.span } s₁)
    exact ⟨{ hdeclare.discharges with }, fun hs => (hdeclare.rooted hs).of_same rfl rfl rfl, hdeclare.paths⟩

mutual

theorem decl_tallies (kind : SourceKind) (stop : Nat) (d : Decl) (h : Clear x d.landmarks d.exprs)
    (declared : List String) : (decl kind stop d declared).Tallies x d.dues := by
  match d with
  | .binding span b =>
    obtain ⟨hhead, hbody⟩ := List.forall_mem_append.mp h.landmarks
    exact checkModuleBinding_tallies hhead ⟨hbody, h.records⟩ stop declared
  | .open span name =>
    have hname : ∀ n ∈ name.parts, n.Away x := fun n hn => h.landmarks (.label n) (List.mem_map_of_mem hn)
    exact (checkOpen_tallies span hname stop).andThen fun _ => (silent_pure _).tallies
  | .module span name members =>
    have hmembers := decls_tallies kind span.stop members
      (h.sub (List.subset_cons_self _ _) (List.Subset.refl _)) []
    have hname : IsSimpleName name.text := h.names name List.mem_cons_self
    intro s
    simp only [decl, withScope, yields_bind, yields_get, yields_modify, yields_pure]
    refine (enterModule_enters _ (some name.span) span s).mono ?_
    rintro _ _ rfl
    refine (hmembers _).mono fun _ s₁ h₁ => ?_
    obtain ⟨hdischarges, hpaths⟩ := Tallies.enterModule x s (s.qualified name.text) (some name.span) span
    have henter := fun hs : s.Rooted => hs.enterQualified hname (some name.span) span
    have hinside := hdischarges.trans henter h₁.discharges
    have hall := List.Subset.trans hpaths h₁.paths
    exact ⟨{ hinside with }, fun hs => hs.leave (h₁.rooted (henter hs)) hall, hall⟩
  | .type span name body =>
    obtain ⟨-, hbody⟩ := List.forall_mem_cons.mp h.landmarks
    have hname : IsSimpleName name.text := h.names name List.mem_cons_self
    exact (checkType_tallies hname hbody).andThen fun _ => (silent_pure _).tallies
  | .expr span e =>
    have hvalue := (expr_settles e ⟨h.landmarks, h.records⟩).value none
    refine hvalue.tallies.andThen fun t => Silent.tallies ?_
    split
    · exact (silent_warnIgnored _ _).bind fun _ => silent_pure _
    · exact silent_pure _
  | .directive _ _ | .error _ => exact (silent_pure _).tallies

theorem decls_tallies (kind : SourceKind) (stop : Nat) (ds : List Decl)
    (h : Clear x (Decl.landmarksOfAll ds) (Decl.exprsOfAll ds)) (declared : List String) :
    (decls kind stop ds declared).Tallies x (Decl.duesOfAll ds) := by
  match ds with
  | [] => exact (silent_pure _).tallies
  | d :: ds =>
    have hhead := h.sub (List.subset_append_left _ _) (List.subset_append_left _ _)
    have htail := h.sub (List.subset_append_right _ _) (List.subset_append_right _ _)
    exact (decl_tallies kind stop d hhead declared).bind (decls_tallies kind stop ds htail)

end

/-! Files -/

theorem silent_forM {f : α → Checker Unit} (h : ∀ a, Silent (f a)) (as : List α) : Silent (as.forM f) := by
  rw [List.forM_eq_forM]
  induction as with
  | nil => exact silent_pure _
  | cons a as ih =>
    rw [List.forM_cons]
    exact (h a).bind fun _ => ih

theorem silent_checkReferences (f : SyntaxFile) (context : Context) : Silent (checkReferences f context) := by
  refine silent_forM (fun reference => ?_) _
  split
  · split
    · exact silent_pure _
    · exact silent_report _ rfl
  · exact silent_pure _

end Checker

namespace SyntaxFile

open Checker CheckerState

/-- No segment of the name of the file's module is empty. -/
def HasPlainName (f : SyntaxFile) : Prop := ∀ path ∈ f.moduleName?, "" ∉ pathSegments path

/-- In front of the declarations nothing is looked up yet. -/
theorem endState_discharges (f : SyntaxFile) (context : Context) {x : Span}
    (h : Clear x (Decl.landmarksOfAll f.decls) (Decl.exprsOfAll f.decls)) :
    ∃ s : CheckerState, (CheckerState.initial context.libraryNames).Discharges x [] s ∧
      ("System" ∈ context.libraryNames → f.HasPlainName → s.Rooted) ∧
        s.Discharges x (Decl.duesOfAll f.decls) (f.endState context) := by
  let start := CheckerState.initial context.libraryNames
  let Q (s' : CheckerState) : Prop := ∃ s : CheckerState, start.Discharges x [] s ∧
    ("System" ∈ context.libraryNames → f.HasPlainName → s.Rooted) ∧ s.Discharges x (Decl.duesOfAll f.decls) s'
  change (file f context).Yields start fun _ s' => Q s'
  have hdecls {s : CheckerState} (hs : start.Discharges x [] s)
      (hrooted : "System" ∈ context.libraryNames → f.HasPlainName → s.Rooted) :
      (Checker.decls f.kind f.text.byteSize f.decls []).Yields s fun _ s' => Q s' :=
    (decls_tallies f.kind f.text.byteSize f.decls h [] s).mono fun _ _ h' => ⟨s, hs, hrooted, h'.discharges⟩
  refine ((silent_checkReferences f context).pays (x := x) start).bind fun _ s₁ h₁ => ?_
  refine ((silent_forM (fun p => silent_report _ rfl) _).pays (x := x) s₁).bind fun _ s₂ h₂ => ?_
  have hstays : start.Stays s₂ := h₁.2.trans h₂.2
  have hdischarges : start.Discharges x [] s₂ := h₁.1.trans h₁.2.rooted h₂.1
  have hrooted (hsystem : "System" ∈ context.libraryNames) : s₂.Rooted := hstays.rooted (.initial hsystem)
  split
  case h_1 path hpath =>
    refine (enterModule_enters path _ _ s₂).bind ?_
    rintro _ _ rfl
    refine hdecls (hdischarges.trans hstays.rooted (Tallies.enterModule x s₂ path _ _).1) fun hsystem hname => ?_
    exact (hrooted hsystem).enterModule (hname path hpath) _ _
  case h_2 => exact hdecls hdischarges fun hsystem _ => hrooted hsystem

end SyntaxFile
end ScriptAnalyzer

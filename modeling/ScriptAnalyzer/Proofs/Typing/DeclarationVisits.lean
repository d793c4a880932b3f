import ScriptAnalyzer.Typing.Check
import ScriptAnalyzer.Proofs.Typing.ExpressionVisits
import ScriptAnalyzer.Proofs.Typing.Results

/-!
The way of the checker through the declarations of a file.
-/

namespace ScriptAnalyzer

/-- The entities with the namespaces around the module at `path`. -/
def Entities.withNamespaces (es : Entities) (path before : String) : List String → Entities
  | [] => es
  | segment :: segments =>
    let inner := if before.isEmpty then segment else before ++ "." ++ segment
    let es := if inner != path && !es.contains inner then
      es.declare { path := inner, kind := .nameSpace } else es
    es.withNamespaces path inner segments

/-- What declaring a namespace keeps. -/
theorem Entities.withNamespaces_keeps {R : Entities → Prop} {es : Entities}
    (hdeclare : ∀ es inner, R es → R (es.declare { path := inner, kind := .nameSpace })) (h : R es)
    (path before : String) (segments : List String) : R (es.withNamespaces path before segments) := by
  induction segments generalizing es before with
  | nil => exact h
  | cons segment segments ih =>
    simp only [withNamespaces]
    generalize (if before.isEmpty then segment else before ++ "." ++ segment) = inner
    refine ih ?_ inner
    split
    · exact hdeclare es inner h
    · exact h

namespace CheckerState

def declare (s : CheckerState) (e : Entity) : CheckerState := { s with entities := s.entities.declare e }

/-- Opens the entity at `path` in a part of the text. -/
def opening (s : CheckerState) (region : Span) (path : String) : CheckerState :=
  { s with
    scope.opens := path :: s.scope.opens
    records.regions := ⟨region, path⟩ :: s.records.regions }

def publish (s : CheckerState) (b : Binder) : CheckerState :=
  let m : Member := { name := b.simpleName, kind := .value b.scheme b.params, span := some b.span }
  { s with entities := s.entities.modifyDeclared (joinPath s.scope.modulePath) fun e =>
      { e with members := e.members.filter (·.name != m.name) ++ [m] } }

/-- Makes the binders members of the enclosing module. -/
def publishAll (s : CheckerState) (indices : List Nat) : CheckerState :=
  indices.foldl (fun s i => (s.binders[i]?).elim s s.publish) s

/-- What publishing each of the binders keeps. -/
theorem publishAll_keeps {R : CheckerState → Prop} {s : CheckerState} {indices : List Nat}
    (hpublish : ∀ s, ∀ i ∈ indices, ∀ b, s.binders[i]? = some b → R s → R (s.publish b)) (h : R s) :
    R (s.publishAll indices) := by
  unfold publishAll
  induction indices generalizing s with
  | nil => exact h
  | cons i is ih =>
    refine ih (fun s i hi => hpublish s i (List.mem_cons_of_mem _ hi)) ?_
    change R ((s.binders[i]?).elim s s.publish)
    cases hb : s.binders[i]? with
    | none => exact h
    | some b => exact hpublish s i List.mem_cons_self b hb h

/-- Declares a module and goes into it. -/
def inModule (s : CheckerState) (path : String) (name : Option Span) (region : Span) : CheckerState :=
  { s with
    entities := s.entities.declare { path, kind := .module, span := name }
    scope.modulePath := pathSegments path
    records.regions := ⟨region, path⟩ :: s.records.regions }

def enterModule (s : CheckerState) (path : String) (name : Option Span) (region : Span) : CheckerState :=
  let s := { s with entities := s.entities.withNamespaces path "" (pathSegments path) }
  let e : Entity := { path, kind := .module, span := name }
  (name.elim s fun span => s.declareAt span (.fixed e.symbol)).inModule path name region

end CheckerState

def Member.ofField (name : Ident) (t : Ty) : Member :=
  { name := name.text, kind := .field t, span := some name.span }

def Entity.ofType (path : String) (span : Span) (members : List Member) : Entity :=
  { path, kind := .type, members, span := some span }

section

variable (L : Landmark → Prop)

/-- Declares the fields of a record, one after the other. -/
inductive Fields (path : String) :
    List (Ident × TypeExpr) → List Member → CheckerState → CheckerState → Prop
  | nil (o : CheckerState) : Fields path [] [] o o
  | cons {name : Ident} {written : TypeExpr} {fields : List (Ident × TypeExpr)} {ms : List Member}
      {t : Ty} {o o₁ o' : CheckerState} :
    Notes L o o₁ →
    Fields path fields ms (o₁.declareAt name.span (.fixed ((Member.ofField name t).symbol path))) o' →
    Fields path ((name, written) :: fields) (.ofField name t :: ms) o o'

/-- The way through the declarations of a module that ends at `stop`. -/
inductive DeclsVisit : Nat → List Decl → CheckerState → CheckerState → Prop
  | nil {stop : Nat} (o : CheckerState) : DeclsVisit stop [] o o
  | skip {stop : Nat} {d : Decl} {ds : List Decl} {o o' : CheckerState} :
    DeclsVisit stop ds o o' → DeclsVisit stop (d :: ds) o o'
  | expr {stop : Nat} {span : Span} {e : Expr} {ds : List Decl} {o o₁ o' : CheckerState} :
    Visits L [e] o o₁ → DeclsVisit stop ds o₁ o' → DeclsVisit stop (.expr span e :: ds) o o'
  | binding {stop : Nat} {span : Span} {b : Binding} {ds : List Decl} {bound : List Nat}
      {o o₁ o' : CheckerState} :
    b.toLetHead.Visited L b.body stop true bound o o₁ → DeclsVisit stop ds (o₁.publishAll bound) o' →
    DeclsVisit stop (.binding span b :: ds) o o'
  | opening {stop : Nat} {span : Span} {name : LongIdent} {path : String} {ds : List Decl}
      {o o₁ o' : CheckerState} :
    o.entity? name.segments = some path → Notes L o o₁ →
    DeclsVisit stop ds (o₁.opening ⟨span.stop, stop⟩ path) o' →
    DeclsVisit stop (.open span name :: ds) o o'
  | module {stop : Nat} {span : Span} {name : Ident} {members ds : List Decl} {o o₁ o' : CheckerState} :
    DeclsVisit span.stop members (o.enterModule (o.qualified name.text) (some name.span) span) o₁ →
    DeclsVisit stop ds { o₁ with scope := o.scope } o' →
    DeclsVisit stop (.module span name members :: ds) o o'
  | record {stop : Nat} {span : Span} {name : Ident} {fields : List (Ident × TypeExpr)}
      {path : String} {ms : List Member} {ds : List Decl} {o o₁ o' : CheckerState} :
    path = o.qualified name.text →
    Fields L path fields ms (o.declare (.ofType path name.span [])) o₁ →
    DeclsVisit stop ds
      (({ o₁ with entities := o.entities.declare (.ofType path name.span ms) }).declareAt name.span
        (.fixed (Entity.ofType path name.span ms).symbol)) o' →
    DeclsVisit stop (.type span name (.record fields) :: ds) o o'
  | abbreviation {stop : Nat} {span : Span} {name : Ident} {written : TypeExpr} {symbol : Symbol}
      {ds : List Decl} {o o₁ o' : CheckerState} :
    symbol.span = some name.span → Notes L o o₁ →
    DeclsVisit stop ds (o₁.declareAt name.span (.fixed symbol)) o' →
    DeclsVisit stop (.type span name (.abbreviation written) :: ds) o o'

end

theorem Fields.entities {L : Landmark → Prop} {path : String} {fields : List (Ident × TypeExpr)}
    {ms : List Member} {o o' : CheckerState} (h : Fields L path fields ms o o') :
    o'.entities = o.entities := by
  induction h with
  | nil => rfl
  | cons hnotes _ ih => exact ih.trans hnotes.entities

namespace Checker

variable {L : Landmark → Prop}

theorem declareNamespaces_declares (path before : String) (segments : List String) (s : CheckerState) :
    (declareNamespaces path before segments).Yields s fun _ s' =>
      s' = { s with entities := s.entities.withNamespaces path before segments } := by
  induction segments generalizing before s with
  | nil => exact rfl
  | cons segment segments ih =>
    simp only [declareNamespaces, Entities.withNamespaces, yields_bind, yields_get]
    generalize (if before.isEmpty then segment else before ++ "." ++ segment) = inner
    split
    case isTrue =>
      rw [yields_bind, yields_modify]
      exact ih inner _
    case isFalse => exact ih inner s

theorem enterModule_enters (path : String) (name : Option Span) (region : Span) (s : CheckerState) :
    (enterModule path name region).Yields s fun _ s' => s' = s.enterModule path name region := by
  refine (declareNamespaces_declares path "" (pathSegments path) s).bind fun _ s₁ h₁ => ?_
  cases name with
  | none => exact congrArg (·.inModule path none region) h₁
  | some span =>
    let e : Entity := { path, kind := .module, span := span }
    exact congrArg (fun s => (s.declareAt span (.fixed e.symbol)).inModule path (some span) region) h₁

theorem enterModule_outline (path : String) (name : Option Span) (region : Span) (s : CheckerState) :
    (enterModule path name region).Yields s fun _ s' =>
      s'.outline = s.outline.enterModule path name region := by
  refine (enterModule_enters path name region s).mono ?_
  rintro _ _ rfl
  cases name <;> exact rfl

theorem publishAll_outline (bound : List Nat) (declared : List String) (s : CheckerState) :
    (publishAll bound declared).Yields s fun _ s' => s'.outline = s.outline.publishAll bound := by
  induction bound generalizing declared s with
  | nil => exact rfl
  | cons i bound ih =>
    rw [publishAll, yields_bind, yields_binderAt]
    have hnext (o : CheckerState) : o.publishAll (i :: bound) =
        ((o.binders[i]?).elim o o.publish).publishAll bound := rfl
    rw [hnext, show s.outline.binders = s.binders from rfl]
    split
    case h_1 hnone =>
      rw [hnone]
      exact ih declared _
    case h_2 b hb =>
      rw [hb, Option.elim_some]
      have published (s₁ : CheckerState) (h₁ : s₁.outline = s.outline) :
          Yields (do
            publish b
            publishAll bound (b.simpleName :: declared)) s₁ fun _ s' =>
              s'.outline = (s.outline.publish b).publishAll bound :=
        h₁ ▸ ih _ (s₁.publish b)
      simp only [yields_bind, yields_get]
      split
      case isTrue => exact (quiet_report _ _).first fun _ => published
      case isFalse => exact published _ rfl

theorem checkModuleBinding_visited {b : Binding} (h : ∀ m ∈ b.landmarks, L m) (stop : Nat)
    (declared : List String) (s : CheckerState) :
    (checkModuleBinding b stop declared).Yields s fun _ s' => ∃ bound o,
      b.toLetHead.Visited L b.body stop true bound s.outline o ∧ s'.outline = o.publishAll bound := by
  obtain ⟨hhead, hbody⟩ := List.forall_mem_append.mp h
  simp only [checkModuleBinding, yields_bind, yields_modify]
  have hvalue := fun expected => (expr_walks b.body hbody).value expected
  refine (checkBinding_visited hhead hvalue { s with typeVars := [] }).mono fun bound s₁ h₁ => ?_
  exact (publishAll_outline bound declared s₁).mono fun _ s₂ h₂ => ⟨bound, s₁.outline, h₁, h₂⟩

theorem recordFields_fields (path : String) {fields : List (Ident × TypeExpr)}
    (h : ∀ m ∈ (TypeBody.record fields).landmarks, L m) (s : CheckerState) :
    (recordFields path fields).Yields s fun ms s' => Fields L path fields ms s.outline s'.outline := by
  induction fields generalizing s with
  | nil => exact .nil _
  | cons field fields ih =>
    obtain ⟨name, written⟩ := field
    obtain ⟨hfield, hfields⟩ := List.forall_mem_append.mp h
    have hwritten := (List.forall_mem_cons.mp hfield).2
    refine (annotation_notes written (labels_of_landmarks hwritten) s).bind fun t s₁ h₁ => ?_
    refine Yields.bind (Q := fun _ s' => s' = s₁.declareAt name.span _) rfl ?_
    rintro _ _ rfl
    exact (ih hfields _).bind fun ms s₂ h₂ => .cons h₁ h₂

/-- Whatever is visited behind a declaration can be visited with it in front. -/
def DeclLeads (L : Landmark → Prop) (stop : Nat) (d : Decl) (o o' : CheckerState) : Prop :=
  ∀ ds o'', DeclsVisit L stop ds o' o'' → DeclsVisit L stop (d :: ds) o o''

theorem DeclLeads.skip (L : Landmark → Prop) (stop : Nat) (d : Decl) (o : CheckerState) :
    DeclLeads L stop d o o :=
  fun _ _ hrest => .skip hrest

theorem checkType_leads (span : Span) (name : Ident) {body : TypeBody} (stop : Nat)
    (h : ∀ m ∈ body.landmarks, L m) (s : CheckerState) :
    (checkType name body).Yields s fun _ s' =>
      DeclLeads L stop (.type span name body) s.outline s'.outline := by
  simp only [checkType, yields_bind, yields_modify, yields_get]
  cases body with
  | record fields =>
    simp only [yields_bind, yields_modify, yields_get]
    have hpath : ({ s with typeVars := [] } : CheckerState).qualified name.text =
        s.outline.qualified name.text := rfl
    rw [hpath]
    generalize hname : s.outline.qualified name.text = path
    refine (recordFields_fields path h _).mono fun ms s₁ h₁ => ?_
    have hentities : s₁.entities.modifyDeclared path ({ · with members := ms }) =
        s.entities.declare (.ofType path name.span ms) := by
      have hs₁ : s₁.entities = s.entities.declare (.ofType path name.span []) := h₁.entities
      rw [hs₁]
      simp [Entities.modifyDeclared, Entities.declare, Entities.modifyFirst, Entity.ofType]
    have hfind : (s.entities.declare (.ofType path name.span ms)).find? path =
        some (.ofType path name.span ms) := by
      simp [Entities.find?, Entities.all, Entities.declare, Entity.ofType]
    rw [hentities, hfind]
    exact fun ds o'' hrest => .record hname.symm h₁ hrest
  | abbreviation written =>
    refine (annotation_notes written (labels_of_landmarks h) _).bind fun t s₁ h₁ => ?_
    exact fun ds o'' hrest => .abbreviation rfl h₁ hrest

theorem checkOpen_leads (span : Span) {name : LongIdent} (stop : Nat) (h : ∀ n ∈ name.parts, L (.label n))
    (s : CheckerState) :
    (checkOpen span name stop).Yields s fun _ s' =>
      DeclLeads L stop (.open span name) s.outline s'.outline := by
  simp only [checkOpen, yields_bind, yields_get]
  split
  case h_1 => exact Quiet.keeps (quiet_report _ _) (.skip L stop _ s.outline)
  case h_2 path hpath =>
    refine (mentionSegments_notes _ h s).bind fun _ s₁ h₁ => ?_
    exact fun ds o'' hrest => .opening hpath h₁ hrest

theorem checkExpr_leads (span : Span) {e : Expr} (h : ∀ m ∈ e.landmarks, L m) (kind : SourceKind)
    (stop : Nat) (declared : List String) (s : CheckerState) :
    Yields (do
      let t ← valueOf e (expr e none)
      if kind = .module then warnIgnored t e.span
      return declared) s fun _ s' => DeclLeads L stop (.expr span e) s.outline s'.outline := by
  refine ((expr_walks e h).value none s).bind fun t s₁ h₁ => ?_
  refine Quiet.keeps ?_ fun ds o'' hrest => .expr h₁.visits hrest
  split
  · exact (quiet_warnIgnored _ _).bind fun _ => quiet_pure _
  · exact quiet_pure _

mutual

theorem decl_leads (kind : SourceKind) (stop : Nat) (d : Decl) (h : ∀ m ∈ d.landmarks, L m)
    (declared : List String) (s : CheckerState) :
    (decl kind stop d declared).Yields s fun _ s' => DeclLeads L stop d s.outline s'.outline := by
  match d with
  | .binding span b =>
    refine (checkModuleBinding_visited h stop declared s).mono fun _ s₁ h₁ => ?_
    obtain ⟨bound, o, h₁, hs₁⟩ := h₁
    exact fun ds o'' hrest => .binding h₁ (hs₁ ▸ hrest)
  | .open span name =>
    have hname : ∀ n ∈ name.parts, L (.label n) := fun _ hn => h _ (List.mem_map_of_mem hn)
    exact (checkOpen_leads span stop hname s).bind fun _ _ h₁ => h₁
  | .module span name members =>
    have hmembers := (List.forall_mem_cons.mp h).2
    simp only [decl, withScope, yields_bind, yields_get, yields_modify, yields_pure]
    refine (enterModule_outline _ (some name.span) span s).mono fun _ s₁ h₁ => ?_
    refine (decls_visited kind span.stop members hmembers [] s₁).mono fun _ s₂ h₂ => ?_
    exact fun ds o'' hrest => .module (h₁ ▸ h₂) hrest
  | .type span name body =>
    have hbody := (List.forall_mem_cons.mp h).2
    exact (checkType_leads span name stop hbody s).bind fun _ _ h₁ => h₁
  | .expr span e => exact checkExpr_leads span h kind stop declared s
  | .directive _ _ | .error _ => exact .skip L stop _ s.outline

theorem decls_visited (kind : SourceKind) (stop : Nat) (ds : List Decl)
    (h : ∀ m ∈ Decl.landmarksOfAll ds, L m) (declared : List String) (s : CheckerState) :
    (decls kind stop ds declared).Yields s fun _ s' => DeclsVisit L stop ds s.outline s'.outline := by
  match ds with
  | [] => exact .nil _
  | d :: ds =>
    obtain ⟨hd, hds⟩ := List.forall_mem_append.mp h
    refine (decl_leads kind stop d hd declared s).bind fun declared s₁ h₁ => ?_
    exact (decls_visited kind stop ds hds declared s₁).mono fun _ s₂ h₂ => h₁ _ _ h₂

end

/-! Files -/

theorem quiet_forM {α : Type} {f : α → Checker Unit} (h : ∀ a, Quiet (f a)) (as : List α) :
    Quiet (as.forM f) := by
  rw [List.forM_eq_forM]
  induction as with
  | nil => exact quiet_pure _
  | cons a as ih =>
    rw [List.forM_cons]
    exact (h a).bind fun _ => ih

theorem quiet_checkReferences (f : SyntaxFile) (context : Context) :
    Quiet (checkReferences f context) := by
  refine quiet_forM (fun reference => ?_) _
  split
  · split
    · exact quiet_pure _
    · exact quiet_report _ _
  · exact quiet_pure _

end Checker

namespace SyntaxFile

/-- The outline in front of the first declaration of the file. -/
def startOutline (f : SyntaxFile) (context : Context) : CheckerState :=
  let start := CheckerState.initial context.libraryNames
  f.moduleName?.elim start fun path =>
    start.enterModule path (f.header.map LongIdent.span) ⟨0, f.text.byteSize⟩

open Checker

theorem endState_visited {L : Landmark → Prop} (f : SyntaxFile) (context : Context)
    (h : ∀ m ∈ Decl.landmarksOfAll f.decls, L m) :
    DeclsVisit L f.text.byteSize f.decls (f.startOutline context) (f.endState context).outline := by
  let start := CheckerState.initial context.libraryNames
  change (file f context).Yields start fun _ s' => DeclsVisit L f.text.byteSize f.decls _ s'.outline
  have hdecls (s : CheckerState) (hs : s.outline = f.startOutline context) :
      (Checker.decls f.kind f.text.byteSize f.decls []).Yields s fun _ s' =>
        DeclsVisit L f.text.byteSize f.decls (f.startOutline context) s'.outline :=
    hs ▸ decls_visited f.kind f.text.byteSize f.decls h [] s
  refine (quiet_checkReferences f context).first fun _ s₁ h₁ => ?_
  refine (quiet_forM (fun _ => quiet_report _ _) _).first fun _ s₂ h₂ => ?_
  have hstart : s₂.outline = start.outline := h₂.trans h₁
  split
  case h_1 path hpath =>
    refine (enterModule_outline path _ _ s₂).bind fun _ s₃ h₃ => hdecls s₃ ?_
    rw [h₃, hstart, startOutline, hpath]
    rfl
  case h_2 hnone =>
    refine hdecls s₂ ?_
    have hnone : f.moduleName? = none := by
      cases hname : f.moduleName? with
      | none => rfl
      | some path => exact absurd hname (hnone path)
    rw [hstart, startOutline, hnone]
    rfl

end SyntaxFile
end ScriptAnalyzer

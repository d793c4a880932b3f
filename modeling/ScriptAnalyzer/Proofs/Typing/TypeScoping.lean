import ScriptAnalyzer.Proofs.Typing.Generalization
import ScriptAnalyzer.Proofs.Typing.UnusedNames

/-!
Which declaration a type name means. Abbreviations and records are kept in two tables, and the
abbreviations are searched through first. So a name means its latest declaration in the innermost module
that has one, unless that is a record and an abbreviation of the name is in sight, be it older or farther
out, or another entity comes in front of the record.
-/

namespace ScriptAnalyzer

/-- A type that a file declares, by its qualified name, and what the name means there. -/
structure TypeDeclaration where
  path : String
  meaning : Ty
  isRecord : Bool

namespace TypeDeclaration

def record (path : String) : TypeDeclaration := ⟨path, .ofEntityPath path, true⟩

def abbreviations (history : List TypeDeclaration) : List TypeDeclaration := history.filter (!·.isRecord)

/-- Among declarations, the latest ones first, that of the name in the innermost module around. -/
def latest? (history : List TypeDeclaration) (modulePath : List String) (name : String) :
    Option TypeDeclaration :=
  (enclosingPaths modulePath ++ [""]).findSome? fun owner => history.find? (·.path == qualify owner name)

variable {history : List TypeDeclaration} {modulePath : List String} {name : String} {d : TypeDeclaration}

theorem mem_of_latest? (h : latest? history modulePath name = some d) : d ∈ history := by
  obtain ⟨owner, -, hfind⟩ := List.exists_of_findSome?_eq_some h
  exact List.mem_of_find?_eq_some hfind

/-- The path of the latest declaration is one of those that names are looked up at. -/
theorem path_of_latest? (h : latest? history modulePath name = some d) :
    ∃ owner ∈ enclosingPaths modulePath ++ [""], d.path = qualify owner name := by
  obtain ⟨owner, howner, hfind⟩ := List.exists_of_findSome?_eq_some h
  exact ⟨owner, howner, by simpa using List.find?_some hfind⟩

/-- If the latest declaration is an abbreviation, it is the latest abbreviation as well. -/
theorem latest?_abbreviations (h : latest? history modulePath name = some d) (hd : d.isRecord = false) :
    latest? (abbreviations history) modulePath name = some d := by
  obtain ⟨inner, owner, outer, howners, hfind, hinner⟩ := List.findSome?_eq_some_iff.mp h
  refine List.findSome?_eq_some_iff.mpr ⟨inner, owner, outer, howners, ?_, fun owner' howner' => ?_⟩
  · obtain ⟨hpath, later, earlier, hsplit, hlater⟩ := List.find?_eq_some_iff_append.mp hfind
    refine List.find?_eq_some_iff_append.mpr ⟨hpath, abbreviations later, abbreviations earlier, ?_, ?_⟩
    · rw [hsplit, abbreviations, List.filter_append, List.filter_cons_of_pos (by simp [hd])]
      rfl
    · exact fun d' hd' => hlater d' (List.mem_filter.mp hd').1
  · rw [List.find?_eq_none]
    exact fun d' hd' => List.find?_eq_none.mp (hinner owner' howner') d' (List.mem_filter.mp hd').1

/-- The table of the abbreviations. -/
def table (history : List TypeDeclaration) : List (String × Ty) :=
  (abbreviations history).map fun d => (d.path, d.meaning)

theorem table_append (history history' : List TypeDeclaration) :
    table (history ++ history') = table history ++ table history' := by
  simp [table, abbreviations]

theorem lookup_map (l : List TypeDeclaration) (path : String) :
    (l.map fun d => (d.path, d.meaning)).lookup path = (l.find? (·.path == path)).map (·.meaning) := by
  induction l with
  | nil => rfl
  | cons d l ih =>
    rw [List.map_cons, List.lookup_cons, List.find?_cons, BEq.comm]
    cases d.path == path with
    | true => rfl
    | false => exact ih

end TypeDeclaration

open TypeDeclaration

/-- The state in which the fields of a record are read. -/
def CheckerState.openRecord (s : CheckerState) (name : Ident) : CheckerState :=
  ({ s with typeVars := [] } : CheckerState).declare (.ofType (s.qualified name.text) name.span [])

namespace Checker

variable (kind : SourceKind)

mutual

/-- The types that a declaration declares that is checked from the state on, the latest first. -/
def typesOf : Decl → CheckerState → List TypeDeclaration
  | .type _ name (.record _), s => [.record (s.qualified name.text)]
  | .type _ name (.abbreviation written), s =>
    [⟨s.qualified name.text, (( annotation written).run { s with typeVars := [] }).1, false⟩]
  | .module span name members, s =>
    typesOfAll span.stop members [] ((enterModule (s.qualified name.text) (some name.span) span).run s).2
  | _, _ => []

def typesOfAll (stop : Nat) : List Decl → List String → CheckerState → List TypeDeclaration
  | [], _, _ => []
  | d :: ds, declared, s =>
    typesOfAll stop ds ((decl kind stop d declared).run s).1 ((decl kind stop d declared).run s).2 ++
      typesOf d s

end

/-- Checking the declarations from a state on, with the types that were declared before it, arrives at
another state and the types that were declared before that: in front of, between or behind the
declarations or those of a module among them, or in front of the fields of a record. -/
inductive Arrives : Nat → List Decl → List String → List TypeDeclaration → CheckerState →
    List TypeDeclaration → CheckerState → Prop
  | here {stop : Nat} {ds : List Decl} {declared : List String} {history : List TypeDeclaration}
    {s : CheckerState} : Arrives stop ds declared history s history s
  | fields {stop : Nat} {span : Span} {name : Ident} {fields : List (Ident × TypeExpr)} {ds : List Decl}
    {declared : List String} {history : List TypeDeclaration} {s : CheckerState} :
    Arrives stop (.type span name (.record fields) :: ds) declared history s
      (.record (s.qualified name.text) :: history) (s.openRecord name)
  | behind {stop : Nat} {d : Decl} {ds : List Decl} {declared : List String}
    {history history' : List TypeDeclaration} {s s' : CheckerState}
    (h : Arrives stop ds ((decl kind stop d declared).run s).1 (typesOf kind d s ++ history)
      ((decl kind stop d declared).run s).2 history' s') : Arrives stop (d :: ds) declared history s history' s'
  | inside {stop : Nat} {span : Span} {name : Ident} {members ds : List Decl} {declared : List String}
    {history history' : List TypeDeclaration} {s s' : CheckerState}
    (h : Arrives span.stop members [] history
      ((enterModule (s.qualified name.text) (some name.span) span).run s).2 history' s') :
    Arrives stop (.module span name members :: ds) declared history s history' s'

end Checker

/-! The tables -/

namespace CheckerState

/-- The tables hold the types that were declared, the abbreviations in the same order. -/
structure Tables (s : CheckerState) (history : List TypeDeclaration) : Prop where
  abbreviations : s.abbreviations = table history
  records : ∀ d ∈ history, d.isRecord = true → d = .record d.path ∧ s.entities.contains d.path = true

/-- No type is declared, and no entity gets lost. -/
structure Retains (s s' : CheckerState) : Prop where
  abbreviations : s'.abbreviations = s.abbreviations
  paths : s.entities.paths ⊆ s'.entities.paths

variable {s s₁ s' : CheckerState} {history : List TypeDeclaration} {ns : List Ident}

theorem Retains.trans (h : s.Retains s₁) (h' : s₁.Retains s') : s.Retains s' :=
  ⟨h'.abbreviations.trans h.abbreviations, List.Subset.trans h.paths h'.paths⟩

theorem Confines.retains (h : s.Confines ns s') : s.Retains s' :=
  ⟨h.abbreviations, h.entities ▸ List.Subset.refl _⟩

theorem Tables.retains (h : s.Tables history) (h' : s.Retains s') : s'.Tables history where
  abbreviations := h'.abbreviations.trans h.abbreviations
  records d hd hrecord :=
    have ⟨heq, hthere⟩ := h.records d hd hrecord
    ⟨heq, Entities.contains_iff.mpr (h'.paths (Entities.contains_iff.mp hthere))⟩

/-- A record is declared at a path. -/
theorem Tables.record (h : s.Tables history) {path : String} (h' : s.Retains s')
    (hpath : path ∈ s'.entities.paths) : s'.Tables (.record path :: history) where
  abbreviations := h'.abbreviations.trans h.abbreviations
  records := List.forall_mem_cons.mpr
    ⟨fun _ => ⟨rfl, Entities.contains_iff.mpr hpath⟩, (h.retains h').records⟩

/-- A type is abbreviated at a path. -/
theorem Tables.abbreviate (h : s.Tables history) {path : String} {t : Ty}
    (habbreviations : s'.abbreviations = (path, t) :: s.abbreviations)
    (hentities : s'.entities = s.entities) : s'.Tables (⟨path, t, false⟩ :: history) where
  abbreviations := by
    rw [habbreviations, h.abbreviations]
    rfl
  records := List.forall_mem_cons.mpr ⟨nofun, hentities ▸ h.records⟩

end CheckerState

namespace Checker

open CheckerState

variable {α β : Type} {p : Checker α} {f : α → Checker β} {ns : List Ident} {history : List TypeDeclaration}

/-- This part of the checker declares no type. -/
def Retains (p : Checker α) : Prop :=
  ∀ s : CheckerState, s.Marked → p.Yields s fun _ s' => s'.Marked ∧ s.Retains s'

theorem Retains.bind (hp : p.Retains) (hf : ∀ a, (f a).Retains) : (p >>= f).Retains := fun s hs =>
  (hp s hs).bind fun a s₁ h₁ => (hf a s₁ h₁.1).mono fun _ _ h₂ => ⟨h₂.1, h₁.2.trans h₂.2⟩

theorem Retains.getBind {f : CheckerState → Checker β} (hf : ∀ s, (f s).Retains) : (get >>= f).Retains :=
  fun s => hf s s

theorem Confines.retains (h : p.Confines ns) : p.Retains := fun s hs =>
  (h s hs).mono fun _ _ h => ⟨h.1, h.2.retains⟩

theorem publish_retains (b : Binder) : (publish b).Retains := by
  refine fun s hs => ⟨hs.of_same rfl rfl rfl, rfl, ?_⟩
  change s.entities.paths ⊆ (s.publish b).entities.paths
  rw [CheckerState.publish, Entities.paths_modifyDeclared]
  · exact List.Subset.refl _
  · exact fun _ => rfl

theorem publishAll_retains (bound : List Nat) (declared : List String) :
    (publishAll bound declared).Retains := by
  induction bound generalizing declared with
  | nil => exact (silent_pure _).confines.retains
  | cons i bound ih =>
    refine (silent_binderAt i).confines.retains.bind fun _ => ?_
    split
    · exact ih declared
    · refine .getBind fun s => ?_
      split
      · exact (report_confines _ rfl).retains.bind fun _ => (publish_retains _).bind fun _ => ih _
      · exact (publish_retains _).bind fun _ => ih _

theorem clearTypeVars_retains : (modify fun s => { s with typeVars := [] } : Checker Unit).Retains :=
  fun _ hs => ⟨hs.of_same rfl rfl rfl, rfl, List.Subset.refl _⟩

theorem checkModuleBinding_retains (b : Binding) (stop : Nat) (declared : List String) :
    (checkModuleBinding b stop declared).Retains := by
  refine clearTypeVars_retains.bind fun _ => ?_
  exact (moduleBinding_brings b stop).confines.retains.bind fun bound => publishAll_retains bound declared

theorem checkOpen_retains (span : Span) (name : LongIdent) (stop : Nat) : (checkOpen span name stop).Retains := by
  refine .getBind fun s => ?_
  split
  · exact (report_confines _ rfl).retains
  · exact (mentionSegments_confines _ _).retains.bind fun _ s hs =>
      ⟨hs.of_same rfl rfl rfl, rfl, List.Subset.refl _⟩

theorem enterModule_retains (path : String) (name : Option Span) (region : Span) :
    (enterModule path name region).Retains := by
  intro s hs
  refine ((enterModule_retires path name region s hs).and (enterModule_enters path name region s)).mono ?_
  rintro _ _ ⟨⟨hs', -⟩, rfl⟩
  refine ⟨hs', by cases name <;> rfl, ?_⟩
  have hpaths : s.entities.paths ⊆ path :: (s.entities.withNamespaces path "" (pathSegments path)).paths :=
    List.subset_cons_of_subset _ (Entities.paths_withNamespaces _ _ _ _)
  cases name <;> exact hpaths

/-- What checking a type declaration enters into the tables. -/
theorem checkType_tables (kind : SourceKind) (span : Span) (name : Ident) (body : TypeBody) {s : CheckerState}
    (hs : s.Marked) (h : s.Tables history) : (checkType name body).Yields s fun _ s' =>
      s'.Tables (typesOf kind (.type span name body) s ++ history) := by
  unfold checkType
  simp only [yields_bind, yields_modify, yields_get]
  have hcleared : ({ s with typeVars := [] } : CheckerState).Marked := hs.of_same rfl rfl rfl
  cases body with
  | record fields =>
    simp only [yields_bind, yields_modify, yields_get]
    have hopened : (s.openRecord name).Marked := hs.of_same rfl rfl rfl
    refine (recordFields_confines _ fields _ hopened).mono fun members s₁ h₁ => ?_
    have hpaths : (s₁.entities.modifyDeclared (s.qualified name.text) ({ · with members })).paths =
        s.qualified name.text :: s.entities.paths := by
      rw [Entities.paths_modifyDeclared, h₁.2.entities]
      · rfl
      · exact fun _ => rfl
    have hdeclared (s' : CheckerState) (habbreviations : s'.abbreviations = s₁.abbreviations)
        (hentities : s'.entities = s₁.entities.modifyDeclared (s.qualified name.text) ({ · with members })) :
        s'.Tables (.record (s.qualified name.text) :: history) := by
      rw [← hentities] at hpaths
      have hretains : s.Retains s' :=
        ⟨habbreviations.trans h₁.2.abbreviations, hpaths ▸ List.subset_cons_self _ _⟩
      exact h.record hretains (hpaths ▸ List.mem_cons_self)
    split
    · exact hdeclared _ rfl rfl
    · exact hdeclared _ rfl rfl
  | abbreviation written =>
    have hwritten := annotation_confines written _ hcleared
    exact h.abbreviate (congrArg _ hwritten.2.abbreviations) hwritten.2.entities

mutual

theorem decl_tables (kind : SourceKind) (stop : Nat) (d : Decl) (declared : List String)
    {history : List TypeDeclaration} {s : CheckerState} (hs : s.Marked) (h : s.Tables history) :
    (decl kind stop d declared).Yields s fun _ s' => s'.Tables (typesOf kind d s ++ history) := by
  match d with
  | .binding span b => exact (checkModuleBinding_retains b stop declared s hs).mono fun _ _ h' => h.retains h'.2
  | .open span name => exact (checkOpen_retains span name stop s hs).mono fun _ _ h' => h.retains h'.2
  | .module span name members =>
    have henter := enterModule_retains (s.qualified name.text) (some name.span) span s hs
    have hmembers := decls_tables kind span.stop members [] henter.1 (h.retains henter.2)
    exact ⟨hmembers.abbreviations, hmembers.records⟩
  | .type span name body => exact checkType_tables kind span name body hs h
  | .expr span e =>
    refine ((expr_confines e).value none).retains.bind (fun t => Confines.retains (Silent.confines ?_)) s hs |>.mono
      fun _ _ h' => h.retains h'.2
    split
    · exact (silent_warnIgnored _ _).bind fun _ => silent_pure _
    · exact silent_pure _
  | .directive _ _ | .error _ => exact h

theorem decls_tables (kind : SourceKind) (stop : Nat) (ds : List Decl) (declared : List String)
    {history : List TypeDeclaration} {s : CheckerState} (hs : s.Marked) (h : s.Tables history) :
    (decls kind stop ds declared).Yields s fun _ s' =>
      s'.Tables (typesOfAll kind stop ds declared s ++ history) := by
  match ds with
  | [] => exact h
  | d :: ds =>
    have hd := decl_tables kind stop d declared hs h
    have hmarked := (decl_retires kind stop d declared s hs).1
    have hds := decls_tables kind stop ds ((decl kind stop d declared).run s).1 hmarked hd
    rw [← List.append_assoc] at hds
    exact hds

end

variable {kind : SourceKind}

/-- Wherever the checker arrives, the tables hold what was declared before. -/
theorem Arrives.tables {stop : Nat} {ds : List Decl} {declared : List String} {s s' : CheckerState}
    {history' : List TypeDeclaration} (h : Arrives kind stop ds declared history s history' s')
    (hs : s.Marked) (htables : s.Tables history) : s'.Tables history' := by
  induction h with
  | here => exact htables
  | fields => exact htables.record ⟨rfl, List.subset_cons_self _ _⟩ List.mem_cons_self
  | @behind stop d ds declared history history' s s' _ ih =>
    exact ih (decl_retires kind stop d declared s hs).1 (decl_tables kind stop d declared hs htables)
  | @inside stop span name members ds declared history history' s s' _ ih =>
    have henter := enterModule_retains (s.qualified name.text) (some name.span) span s hs
    exact ih henter.1 (htables.retains henter.2)

theorem arrives_take (stop : Nat) (ds : List Decl) (n : Nat) (declared : List String)
    (history : List TypeDeclaration) (s : CheckerState) :
    Arrives kind stop ds declared history s (typesOfAll kind stop (ds.take n) declared s ++ history)
      ((decls kind stop (ds.take n) declared).run s).2 := by
  induction ds generalizing n declared history s with
  | nil =>
    rw [List.take_nil]
    exact .here
  | cons d ds ih =>
    cases n with
    | zero => exact .here
    | succ n =>
      have h := ih n ((decl kind stop d declared).run s).1 (typesOf kind d s ++ history)
        ((decl kind stop d declared).run s).2
      rw [← List.append_assoc] at h
      exact .behind h

end Checker

/-! What a name means -/

namespace CheckerState

variable {s s₁ : CheckerState} {history : List TypeDeclaration} {name : String} {d : TypeDeclaration}

theorem abbreviation?_of_tables (h : s.Tables history) (name : String) : s.abbreviation? name =
    (latest? (TypeDeclaration.abbreviations history) s.scope.modulePath name).map (·.meaning) := by
  simp only [CheckerState.abbreviation?, latest?, List.map_findSome?, h.abbreviations, table, lookup_map]
  rfl

/-- Where names are looked up in the same way, they mean the same. -/
theorem Stays.abbreviation? (h : s.Stays s₁) (habbreviations : s₁.abbreviations = s.abbreviations)
    (name : String) : s₁.abbreviation? name = s.abbreviation? name := by
  rw [CheckerState.abbreviation?, CheckerState.abbreviation?, h.modulePath, habbreviations]

theorem Stays.typeEntity? (h : s.Stays s₁) (segments : List String) :
    s₁.typeEntity? segments = s.typeEntity? segments := by
  simp only [CheckerState.typeEntity?, entity?, searchPaths, h.modulePath, h.opens, h.entities]

/-- The paths at which a name is looked up before the entity at `path`. -/
def inFront (s : CheckerState) (name path : String) : List String :=
  (s.searchPaths.map (qualify · name)).takeWhile (· != path)

/-- A name is found at the first of its paths where there is an entity. -/
theorem entity?_of_inFront {path : String} (hsearched : path ∈ s.searchPaths.map (qualify · name))
    (hthere : s.entities.contains path = true)
    (hfront : ∀ p ∈ s.inFront name path, s.entities.contains p = false) : s.entity? [name] = some path := by
  obtain ⟨front, behind, hsplit, hout⟩ := List.eq_append_cons_of_mem hsearched
  have hne : ∀ p ∈ front, (p != path) = true := fun p hp => bne_iff_ne.mpr (ne_of_mem_of_not_mem hp hout)
  have hinFront : s.inFront name path = front := by
    rw [inFront, hsplit, List.takeWhile_append_of_pos hne]
    simp
  rw [entity?, joinPath_singleton, hsplit]
  exact List.find?_eq_some_iff_append.mpr ⟨hthere, front, behind, rfl, by simpa [← hinFront] using hfront⟩

/-- The latest declaration of a name is found if it is a record and no other entity is in front of it. -/
theorem record_found (h : s.Tables history) (hlatest : latest? history s.scope.modulePath name = some d)
    (hrecord : d.isRecord = true) (hfront : ∀ p ∈ s.inFront name d.path, s.entities.contains p = false)
    (hkind : ∀ e, s.entities.find? d.path = some e → e.kind = .type) :
    ∃ e, s.typeEntity? [name] = some e ∧ e.path = d.path := by
  obtain ⟨-, hthere⟩ := h.records d (mem_of_latest? hlatest) hrecord
  obtain ⟨owner, howner, hpath⟩ := path_of_latest? hlatest
  have hsearched : d.path ∈ s.searchPaths.map (qualify · name) := by
    rw [hpath]
    refine List.mem_map_of_mem ?_
    rcases List.mem_append.mp howner with henclosing | hroot
    · exact List.mem_append_left _ (List.mem_append_left _ henclosing)
    · exact List.mem_append_right _ (List.mem_singleton.mp hroot ▸ List.mem_cons_self)
  obtain ⟨e, he⟩ := Option.isSome_iff_exists.mp hthere
  refine ⟨e, ?_, by simpa using List.find?_some he⟩
  rw [typeEntity?, entity?_of_inFront hsearched hthere hfront, Option.bind_some, he]
  simp [hkind e he]

end CheckerState

namespace Checker

open CheckerState

/-- What a single name that is no built-in one means: an abbreviation, else an entity, else nothing. -/
theorem namedType_means {n : Ident} (hbuiltIn : ¬LongIdent.IsBuiltIn ⟨n, []⟩) (s : CheckerState) :
    (namedType ⟨n, []⟩).Yields s fun t _ => t = (s.abbreviation? n.text).getD
      ((s.typeEntity? [n.text]).elim .error (.ofEntityPath ·.path)) := by
  have hrender : LongIdent.render ⟨n, []⟩ = n.text := String.intercalate_singleton
  simp only [LongIdent.IsBuiltIn, true_and, not_or] at hbuiltIn
  obtain ⟨hatomic, hlist⟩ := hbuiltIn
  simp only [namedType, hrender, List.isEmpty_nil, Bool.true_and]
  rw [if_neg (by simpa using hatomic), if_neg (by simpa using hlist), yields_bind, yields_abbreviation?]
  cases s.abbreviation? n.text with
  | some t => rfl
  | none =>
    simp only [entityType, yields_bind, yields_get, Option.getD_none]
    have hentity : ((s.entity? (LongIdent.segments ⟨n, []⟩)).bind s.entities.find?).filter (·.kind == .type) =
        s.typeEntity? [n.text] := rfl
    rw [hentity]
    cases s.typeEntity? [n.text] with
    | some e => rfl
    | none => rfl

theorem prelude_retains (f : SyntaxFile) (context : Context) : (prelude f context).Retains := by
  refine (silent_checkReferences f context).confines.retains.bind fun _ => ?_
  refine (silent_forM (fun p => silent_report _ rfl) _).confines.retains.bind fun _ => ?_
  split
  · exact enterModule_retains _ _ _
  · exact (silent_pure _).confines.retains

end Checker

namespace SyntaxFile

open CheckerState

/-- Checking the file arrives at this state, and before it these types were declared. -/
def Arrives (f : SyntaxFile) (context : Context) (history : List TypeDeclaration) (s : CheckerState) : Prop :=
  Checker.Arrives f.kind f.text.byteSize f.decls [] [] (f.startState context) history s

theorem Arrives.tables {f : SyntaxFile} {context : Context} {history : List TypeDeclaration} {s : CheckerState}
    (h : f.Arrives context history s) : s.Tables history := by
  have hinitial : (CheckerState.initial context.libraryNames).Marked := ⟨nofun, nofun, nofun⟩
  obtain ⟨hmarked, hstart⟩ := Checker.prelude_retains f context _ hinitial
  exact Checker.Arrives.tables h hmarked ⟨hstart.abbreviations, nofun⟩

/-- A name that is written in a type, where the tables and the place are those that checking arrives at,
means its latest declaration in the innermost module around that has one if and only if that is an
abbreviation, or a record with which no abbreviation of the name in a module around differs and which is
found first among the entities. A record is found first if no other entity has the name and is looked up
before it, and none that is no type has the same path. -/
theorem typeName_latest (f : SyntaxFile) (context : Context) {history : List TypeDeclaration}
    {s s₁ : CheckerState} (harrives : f.Arrives context history s) (hstays : s.Stays s₁)
    (habbreviations : s₁.abbreviations = s.abbreviations) (span : Span) {n : Ident}
    (hbuiltIn : ¬LongIdent.IsBuiltIn ⟨n, []⟩) {d : TypeDeclaration}
    (hlatest : latest? history s.scope.modulePath n.text = some d) :
    ((( Checker.annotation (.named span ⟨n, []⟩)).run s₁).1 = d.meaning ↔ (d.isRecord = true →
      match latest? (TypeDeclaration.abbreviations history) s.scope.modulePath n.text with
      | some a => a.meaning = d.meaning
      | none => (s.typeEntity? [n.text]).map (.ofEntityPath ·.path) = some d.meaning)) ∧
    (d.isRecord = true → (∀ p ∈ s.inFront n.text d.path, s.entities.contains p = false) →
      (∀ e, s.entities.find? d.path = some e → e.kind = .type) →
      (s.typeEntity? [n.text]).map (.ofEntityPath ·.path) = some d.meaning) := by
  have htables := harrives.tables
  refine ⟨?_, fun hrecord hfront hkind => ?_⟩
  · have hmeans : ((Checker.namedType ⟨n, []⟩).run s₁).1 = _ := Checker.namedType_means hbuiltIn s₁
    rw [hstays.abbreviation? habbreviations, hstays.typeEntity?, abbreviation?_of_tables htables] at hmeans
    rw [ Checker.annotation, hmeans]
    cases hrecord : d.isRecord with
    | false => simp [latest?_abbreviations hlatest hrecord]
    | true =>
      cases latest? (TypeDeclaration.abbreviations history) s.scope.modulePath n.text with
      | some a => simp
      | none =>
        obtain ⟨hmeaning, -⟩ := htables.records d (mem_of_latest? hlatest) hrecord
        rw [hmeaning]
        cases s.typeEntity? [n.text] with
        | some e => simp
        | none => exact iff_of_false nofun fun h => nomatch h rfl
  · obtain ⟨hmeaning, -⟩ := htables.records d (mem_of_latest? hlatest) hrecord
    obtain ⟨e, he, hpath⟩ := record_found htables hlatest hrecord hfront hkind
    rw [he, hmeaning, Option.map_some, hpath]
    rfl

/-- A record of the module of the file. -/
theorem record_latest :
    let r := checkText ⟨"shapes.glx"⟩ "module A.B\ntype T = { X : int }\nlet f (a : T) = a.X".toList {} none
    ∃ history s d, r.file.Arrives r.context history s ∧ latest? history s.scope.modulePath "T" = some d ∧
      d.path = "A.B.T" ∧ (( Checker.annotation (.named ⟨43, 44⟩ ⟨⟨"T", ⟨43, 44⟩⟩, []⟩)).run s).1 = d.meaning := by
  intro r
  let start := r.file.startState r.context
  let history := Checker.typesOfAll r.file.kind r.file.text.byteSize (r.file.decls.take 1) [] start ++ []
  let s := ((Checker.decls r.file.kind r.file.text.byteSize (r.file.decls.take 1) []).run start).2
  have harrives : r.file.Arrives r.context history s := Checker.arrives_take _ _ 1 _ _ _
  have hshown : (latest? history s.scope.modulePath "T").map (fun d => (d.path, d.meaning)) =
      some ("A.B.T", .atom "A.B.T") := by decide +kernel
  have hnone : (latest? (TypeDeclaration.abbreviations history) s.scope.modulePath "T").map (·.path) = none := by
    decide +kernel
  have hentity : (s.typeEntity? ["T"]).map (Ty.ofEntityPath ·.path) = some (.atom "A.B.T") := by decide +kernel
  obtain ⟨d, hd, heq⟩ := Option.map_eq_some_iff.mp hshown
  obtain ⟨hpath, hmeaning⟩ := Prod.mk.inj heq
  refine ⟨history, s, d, harrives, hd, hpath, ?_⟩
  refine (typeName_latest _ _ harrives (.refl s) rfl _ ?_ hd).1.mpr fun _ => ?_
  · rintro ⟨-, h | h⟩ <;> revert h <;> decide
  · rw [Option.map_eq_none_iff.mp hnone, hmeaning]
    exact hentity

/-- An older abbreviation hides a record of the same name in the same module. -/
theorem laterRecord_hidden :
    let r := checkText ⟨"test.glx"⟩ "type T = int\ntype T = { X : int }\nlet f (a : T) = a.X".toList {} none
    (∃ history s d, r.file.Arrives r.context history s ∧ latest? history s.scope.modulePath "T" = some d ∧
      d.isRecord = true ∧
        (( Checker.annotation (.named ⟨45, 46⟩ ⟨⟨"T", ⟨45, 46⟩⟩, []⟩)).run s).1 ≠ d.meaning) ∧
    r.hasErrors = true := by
  intro r
  let start := r.file.startState r.context
  let history := Checker.typesOfAll r.file.kind r.file.text.byteSize (r.file.decls.take 2) [] start ++ []
  let s := ((Checker.decls r.file.kind r.file.text.byteSize (r.file.decls.take 2) []).run start).2
  have hshown : (latest? history s.scope.modulePath "T").map (fun d => (d.isRecord, d.meaning)) =
      some (true, .atom "T") := by decide +kernel
  have hmeans : (( Checker.annotation (.named ⟨45, 46⟩ ⟨⟨"T", ⟨45, 46⟩⟩, []⟩)).run s).1 = .atom "int" := by
    decide +kernel
  obtain ⟨d, hd, heq⟩ := Option.map_eq_some_iff.mp hshown
  obtain ⟨hrecord, hmeaning⟩ := Prod.mk.inj heq
  refine ⟨⟨history, s, d, Checker.arrives_take _ _ 2 _ _ _, hd, hrecord, ?_⟩, by decide +kernel⟩
  rw [hmeans, hmeaning]
  decide

end SyntaxFile

end ScriptAnalyzer

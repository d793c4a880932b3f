import ScriptAnalyzer.Proofs.Typing.DeclarationSightings

/-!
The entities form a tree: around each of them there are the namespaces and modules that its path leads
through. So each leading part of a name that means an entity means one, too.
-/

namespace ScriptAnalyzer

variable {p x y outer name path : String} {segments : List String}

/-! Paths -/

/-- In front of a dot a path ends with its last segment or earlier. -/
theorem eq_or_of_append_undotted (hy : '.' ∉ y.toList) (h : p ++ "." ++ y = outer ++ "." ++ name) :
    outer = p ∨ ∃ between, p = outer ++ "." ++ between := by
  have hlists : p.toList ++ ('.' :: y.toList) = outer.toList ++ ('.' :: name.toList) := by
    simpa using congrArg String.toList h
  obtain ⟨mid, houter, htail⟩ | ⟨mid, hp, htail⟩ := List.append_eq_append_iff.mp hlists
  · cases mid with
    | nil => exact .inl (String.toList_inj.mp (by simpa using houter))
    | cons c mid =>
      obtain ⟨-, hname⟩ := List.cons.inj htail
      exact absurd (hname ▸ List.mem_append_right _ List.mem_cons_self) hy
  · cases mid with
    | nil => exact .inl (String.toList_inj.mp (by simpa using hp.symm))
    | cons c mid =>
      obtain ⟨rfl, -⟩ := List.cons.inj htail
      exact .inr ⟨String.ofList mid, String.toList_inj.mp (by simpa using hp)⟩

theorem ne_append_of_undotted (hx : '.' ∉ x.toList) : x ≠ outer ++ "." ++ name := by
  rintro rfl
  simp at hx

theorem qualify_joinPath_cons (h : segments ≠ []) (p x : String) :
    qualify p (joinPath (x :: segments)) = qualify p x ++ "." ++ joinPath segments := by
  rw [joinPath_cons x h]
  by_cases hp : p = ""
  · rw [hp, qualify_empty, qualify_empty]
  · rw [qualify_of_ne hp, qualify_of_ne hp]
    simp only [String.append_assoc]

theorem endsPlain_joinPath (h : segments ≠ []) (hsegments : ∀ x ∈ segments, IsSimpleName x) :
    EndsPlain (joinPath segments) :=
  endsPlain_qualify h hsegments ""

/-- The segments of a path without empty ones are names. -/
theorem simpleName_of_mem_pathSegments (hpath : "" ∉ pathSegments path) (hx : x ∈ pathSegments path) :
    IsSimpleName x := by
  refine ⟨fun hnil => hpath ?_, undotted_of_mem_pathSegments hx⟩
  rwa [← String.toList_eq_nil_iff.mp hnil]

theorem mem_enclosingPaths_of_append (outer name : String) :
    outer ∈ enclosingPaths (pathSegments (outer ++ "." ++ name)) := by
  have hpos := List.length_pos_iff.mpr (pathSegments_ne_nil outer)
  refine List.mem_map.mpr ⟨(pathSegments outer).length - 1, ?_, ?_⟩
  · simp only [pathSegments_join, List.mem_reverse, List.mem_range, List.length_append]
    omega
  · rw [pathSegments_join, Nat.sub_add_cancel hpos, List.take_left', joinPath_pathSegments]
    rfl

/-! Entities -/

namespace Entities

def paths (es : Entities) : List String := es.all.map (·.path)

theorem contains_iff {es : Entities} : es.contains p = true ↔ p ∈ es.paths := by
  simp [contains, find?, paths, List.find?_isSome]

theorem paths_declare (es : Entities) (e : Entity) : (es.declare e).paths = e.path :: es.paths := rfl

theorem paths_modifyDeclared (es : Entities) (path : String) {f : Entity → Entity}
    (hf : ∀ e, (f e).path = e.path) : (es.modifyDeclared path f).paths = es.paths := by
  have hfirst (l : List Entity) : (modifyFirst path f l).map (·.path) = l.map (·.path) := by
    induction l with
    | nil => rfl
    | cons e l ih =>
      rw [modifyFirst]
      split
      · rw [List.map_cons, List.map_cons, hf]
      · rw [List.map_cons, List.map_cons, ih]
  simp [paths, all, modifyDeclared, hfirst]

/-- Around each entity there are those that its path leads through. -/
structure Rooted (es : Entities) : Prop where
  around : ∀ outer name : String, outer ++ "." ++ name ∈ es.paths → outer ∈ es.paths
  plain : ∀ p ∈ es.paths, EndsPlain p

variable {es : Entities} {e : Entity}

theorem Rooted.declare (h : es.Rooted) (hplain : EndsPlain e.path)
    (haround : ∀ outer name : String, e.path = outer ++ "." ++ name → outer ∈ es.paths) :
    (es.declare e).Rooted where
  around outer name hmem := by
    rw [paths_declare] at hmem ⊢
    rcases List.mem_cons.mp hmem with heq | hmem
    · exact List.mem_cons_of_mem _ (haround outer name heq.symm)
    · exact List.mem_cons_of_mem _ (h.around outer name hmem)
  plain := by
    rw [paths_declare]
    exact List.forall_mem_cons.mpr ⟨hplain, h.plain⟩

theorem Rooted.modifyDeclared (h : es.Rooted) (path : String) {f : Entity → Entity}
    (hf : ∀ e, (f e).path = e.path) : (es.modifyDeclared path f).Rooted := by
  have hpaths := es.paths_modifyDeclared path hf
  exact ⟨hpaths.symm ▸ h.around, hpaths.symm ▸ h.plain⟩

/-- What is inside an entity may be declared. -/
theorem Rooted.declare_inside (h : es.Rooted) {inside : List String} (hinside : ∀ x ∈ inside, IsSimpleName x)
    (hthere : inside ≠ [] → joinPath inside ∈ es.paths) (hx : IsSimpleName x)
    (hpath : e.path = joinPath (inside ++ [x])) : (es.declare e).Rooted := by
  refine h.declare ?_ fun outer name heq => ?_
  · rw [hpath]
    refine endsPlain_joinPath (by simp) (List.forall_mem_append.mpr ⟨hinside, ?_⟩)
    exact List.forall_mem_singleton.mpr hx
  · rw [hpath] at heq
    by_cases hnil : inside = []
    · rw [hnil, List.nil_append, joinPath_singleton] at heq
      exact absurd heq (ne_append_of_undotted hx.2)
    · rw [joinPath_concat hnil] at heq
      obtain rfl | ⟨between, hbetween⟩ := eq_or_of_append_undotted hx.2 heq
      · exact hthere hnil
      · exact h.around outer between (hbetween ▸ hthere hnil)

/-- The namespaces around the module at `path` are declared from the outermost one on. Those of the
segments `done` are there. -/
theorem Rooted.withNamespaces (h : es.Rooted) (hpath : "" ∉ pathSegments path) (done : List String)
    (hthere : done ≠ [] → joinPath done ∈ es.paths) {segments : List String} (hnil : segments ≠ [])
    (hsegments : done ++ segments = pathSegments path) :
    (es.withNamespaces path (joinPath done) segments).Rooted ∧
      ∃ inside last, inside ++ [last] = pathSegments path ∧
        (inside ≠ [] → joinPath inside ∈ (es.withNamespaces path (joinPath done) segments).paths) := by
  induction segments generalizing es done with
  | nil => exact absurd rfl hnil
  | cons segment segments ih =>
    have hnames : ∀ x ∈ done ++ [segment], IsSimpleName x := fun x hx =>
      simpleName_of_mem_pathSegments hpath (hsegments ▸ by
        rcases List.mem_append.mp hx with hx | hx
        · exact List.mem_append_left _ hx
        · exact List.mem_append_right _ (List.mem_singleton.mp hx ▸ List.mem_cons_self))
    have hinner : (if (joinPath done).isEmpty then segment else joinPath done ++ "." ++ segment) =
        joinPath (done ++ [segment]) := by
      by_cases hdone : done = []
      · rw [hdone, if_pos (show (joinPath []).isEmpty = true from rfl), List.nil_append, joinPath_singleton]
      · have hne := joinPath_ne_empty hdone fun x hx heq =>
          (hnames x (List.mem_append_left _ hx)).1 (by rw [heq]; rfl)
        rw [if_neg (by rwa [String.isEmpty_iff]), joinPath_concat hdone]
    simp only [Entities.withNamespaces, hinner]
    have hsplit : pathSegments (joinPath (done ++ [segment])) = done ++ [segment] :=
      pathSegments_joinPath (by simp) fun x hx => (hnames x hx).2
    by_cases hmore : segments = []
    · have hlast : joinPath (done ++ [segment]) = path := by
        rw [← joinPath_pathSegments path, ← hsegments, hmore]
      rw [hmore, Entities.withNamespaces, hlast]
      simp only [bne_self_eq_false, Bool.false_and, Bool.false_eq_true, if_false]
      exact ⟨h, done, segment, hmore ▸ hsegments, hthere⟩
    · have hne : joinPath (done ++ [segment]) ≠ path := by
        intro heq
        have hlengths := congrArg List.length (hsplit.symm.trans ((congrArg pathSegments heq).trans hsegments.symm))
        have hpos := List.length_pos_iff.mpr hmore
        simp only [List.length_append, List.length_cons, List.length_nil] at hlengths
        omega
      have hnext (es' : Entities) (hes' : es'.Rooted) (hmem : joinPath (done ++ [segment]) ∈ es'.paths) :=
        @ih es' hes' (done ++ [segment]) (fun _ => hmem) hmore (by simpa using hsegments)
      split
      case isTrue =>
        refine hnext _ ?_ List.mem_cons_self
        exact h.declare_inside (fun x hx => hnames x (List.mem_append_left _ hx)) hthere
          (hnames segment (List.mem_append_right _ (List.mem_singleton_self _))) rfl
      case isFalse hskip =>
        refine hnext es h (contains_iff.mp ?_)
        simpa [hne] using hskip

theorem paths_withNamespaces (es : Entities) (path before : String) (segments : List String) :
    es.paths ⊆ (es.withNamespaces path before segments).paths :=
  withNamespaces_keeps (R := fun es' => es.paths ⊆ es'.paths)
    (fun _ _ h => List.Subset.trans h (List.subset_cons_self _ _)) (List.Subset.refl _) path before segments

end Entities

namespace CheckerState

open Entities

/-- The paths that names are looked up in lead to the entities that they start with. -/
structure Rooted (o : CheckerState) : Prop where
  entities : o.entities.Rooted
  opens : ∀ p ∈ o.scope.opens, EndsPlain p
  names : ∀ x ∈ o.scope.modulePath, IsSimpleName x
  inside : o.scope.modulePath ≠ [] → joinPath o.scope.modulePath ∈ o.entities.paths

namespace Rooted

variable {o o' : CheckerState}

theorem of_same (h : o.Rooted) (hentities : o'.entities = o.entities) (hopens : o'.scope.opens = o.scope.opens)
    (hmodule : o'.scope.modulePath = o.scope.modulePath) : o'.Rooted :=
  ⟨hentities ▸ h.entities, hopens ▸ h.opens, hmodule ▸ h.names, hentities ▸ hmodule ▸ h.inside⟩

theorem endsPlain_of_searched (h : o.Rooted) (hp : p ∈ o.searchPaths) : EndsPlain p := by
  rcases List.mem_append.mp hp with hp | hp
  · rcases List.mem_append.mp hp with hp | hp
    · obtain ⟨n, hn, rfl⟩ := mem_enclosingPaths hp
      refine endsPlain_joinPath ?_ fun x hx => h.names x (List.mem_of_mem_take hx)
      exact List.ne_nil_of_length_pos (by rw [List.length_take]; omega)
    · exact h.opens p hp
  · rcases List.mem_cons.mp hp with rfl | hp
    · decide
    · obtain ⟨e, he, rfl⟩ := List.mem_map.mp hp
      exact h.entities.plain _ (List.mem_map_of_mem (List.mem_append_right _ (List.mem_filter.mp he).1))

/-- If a name means an entity, then its first segment means one around it. -/
theorem head_found (h : o.Rooted) {name : LongIdent} (hpath : o.entity? name.segments = some path) :
    ∃ e, o.entities.find? (qualify (pathBefore path name.render) name.head.text) = some e := by
  rw [← Option.isSome_iff_exists]
  refine contains_iff.mpr ?_
  have hmem : path ∈ o.entities.paths := contains_iff.mp (List.find?_some hpath)
  obtain ⟨p, hp, rfl⟩ := path_of_entity? hpath
  have hbefore : pathBefore (qualify p (joinPath name.segments)) name.render = p :=
    pathBefore_qualify (h.endsPlain_of_searched hp) _
  rw [hbefore]
  have hsegments : name.segments = name.head.text :: name.tail.map (·.text) := rfl
  by_cases hnil : name.tail.map (·.text) = []
  · rwa [hsegments, hnil, joinPath_singleton] at hmem
  · rw [hsegments, qualify_joinPath_cons hnil] at hmem
    exact h.entities.around _ _ hmem

/-- The path of what is declared here consists of those of the module and the name. -/
theorem qualified_eq (o : CheckerState) (name : String) :
    o.qualified name = joinPath (o.scope.modulePath ++ [name]) := by
  unfold qualified
  split
  case isTrue hnil => rw [List.isEmpty_iff.mp hnil, List.nil_append, joinPath_singleton]
  case isFalse hnil => rw [joinPath_concat (by simpa using hnil)]

theorem declare (h : o.Rooted) (hname : IsSimpleName name) {e : Entity} (he : e.path = o.qualified name) :
    (o.declare e).Rooted where
  entities := h.entities.declare_inside h.names h.inside hname (he.trans (qualified_eq o name))
  opens := h.opens
  names := h.names
  inside hnil := List.mem_cons_of_mem _ (h.inside hnil)

theorem modifyDeclared (h : o.Rooted) (path : String) {f : Entity → Entity} (hf : ∀ e, (f e).path = e.path) :
    ({ o with entities := o.entities.modifyDeclared path f } : CheckerState).Rooted where
  entities := h.entities.modifyDeclared path hf
  opens := h.opens
  names := h.names
  inside hnil := by
    rw [paths_modifyDeclared _ _ hf]
    exact h.inside hnil

theorem opening (h : o.Rooted) (hpath : o.entity? segments = some path) (region : Span) :
    (o.opening region path).Rooted where
  entities := h.entities
  opens := List.forall_mem_cons.mpr
    ⟨h.entities.plain _ (contains_iff.mp (List.find?_some hpath)), h.opens⟩
  names := h.names
  inside := h.inside

/-- Behind a module the entities of the module are still there. -/
theorem leave (h : o.Rooted) (h' : o'.Rooted) (hpaths : o.entities.paths ⊆ o'.entities.paths) :
    ({ o' with scope := o.scope } : CheckerState).Rooted :=
  ⟨h'.entities, h.opens, h.names, fun hnil => hpaths (h.inside hnil)⟩

theorem enterModule (h : o.Rooted) (hpath : "" ∉ pathSegments path) (place : Option Span) (region : Span) :
    (o.enterModule path place region).Rooted := by
  obtain ⟨hrooted, inside, last, hsegments, hinside⟩ :=
    h.entities.withNamespaces hpath [] (fun hnil => absurd rfl hnil) (pathSegments_ne_nil path)
      (List.nil_append _)
  have hnames := fun x => simpleName_of_mem_pathSegments (x := x) hpath
  have hentities : (o.enterModule path place region).entities =
      (o.entities.withNamespaces path "" (pathSegments path)).declare
        { path, kind := .module, span := place } := by
    cases place <;> rfl
  have hscope := o.scope_enterModule path place region
  rw [← hsegments] at hnames
  refine ⟨?_, ?_, ?_, fun _ => ?_⟩
  · rw [hentities]
    refine hrooted.declare_inside (fun x hx => hnames x (List.mem_append_left _ hx)) hinside
      (hnames last (List.mem_append_right _ (List.mem_singleton_self _))) ?_
    rw [hsegments, joinPath_pathSegments]
  · rw [hscope]
    exact h.opens
  · rw [hscope, ← hsegments]
    exact hnames
  · rw [hscope, joinPath_pathSegments, hentities]
    exact List.mem_cons_self

/-- Inside a module any name may be declared as a module. -/
theorem enterQualified (h : o.Rooted) (hname : IsSimpleName name) (place : Option Span) (region : Span) :
    (o.enterModule (o.qualified name) place region).Rooted := by
  have hnames : ∀ x ∈ o.scope.modulePath ++ [name], IsSimpleName x :=
    List.forall_mem_append.mpr ⟨h.names, List.forall_mem_singleton.mpr hname⟩
  refine h.enterModule ?_ place region
  rw [qualified_eq, pathSegments_joinPath (by simp) fun x hx => (hnames x hx).2]
  exact fun hempty => (hnames "" hempty).1 rfl

end Rooted
end CheckerState

/-! The libraries that every file refers to -/

namespace Context

variable {α : Type} [BEq α] {c : Context} {base : Path}

theorem subset_addNew (as : List α) (b : α) : as ⊆ addNew as b := by
  unfold addNew
  split
  · exact List.Subset.refl as
  · exact List.subset_append_left _ _

theorem subset_foldl_addNew (as bs : List α) : as ⊆ bs.foldl addNew as := by
  induction bs generalizing as with
  | nil => exact List.Subset.refl as
  | cons b bs ih => exact List.Subset.trans (subset_addNew as b) (ih _)

theorem references_applyNowarn (d : DirectiveLine) (c : Context) :
    (c.applyNowarn d).references = c.references := by
  unfold applyNowarn
  split
  · rfl
  · generalize d.args = args
    induction args generalizing c with
    | nil => rfl
    | cons arg args ih =>
      rw [List.foldl_cons, ih]
      split <;> rfl

/-- A directive may add a reference, but takes none back. -/
theorem references_apply (base : Path) (d : DirectiveLine) (c : Context) :
    c.references ⊆ (c.apply base d).references := by
  unfold apply
  split
  · split
    · exact List.Subset.refl _
    · unfold applyReference
      split
      · split
        · exact subset_addNew _ _
        · exact List.Subset.refl _
      · exact List.Subset.refl _
  · split
    · exact List.Subset.refl _
    · unfold applyLoad
      split <;> exact List.Subset.refl _
  · rw [references_applyNowarn]
    exact List.Subset.refl _
  · unfold applyDefine
    split
    · split <;> exact List.Subset.refl _
    · exact List.Subset.refl _
  · exact List.Subset.refl _

theorem references_step (base : Path) (c : Context) (regions : List Bool) (d : DirectiveLine) :
    c.references ⊆ (step base (c, regions) d).1.references := by
  unfold step
  dsimp only
  split
  · exact List.Subset.refl _
  · exact List.Subset.refl _
  · exact List.Subset.refl _
  · dsimp only
    split
    · exact references_apply base d c
    · exact List.Subset.refl _

theorem implicitReferences_subset (path : Path) (text : Text) (options : ProjectOptions) :
    implicitReferences ⊆ (resolve path text options).references := by
  have hfold (lines : List DirectiveLine) (c : Context) (regions : List Bool) :
      c.references ⊆ (lines.foldl (step (baseDir path options)) (c, regions)).1.references := by
    induction lines generalizing c regions with
    | nil => exact List.Subset.refl _
    | cons d lines ih => exact List.Subset.trans (references_step _ c regions d) (ih _ _)
  have hinitial : implicitReferences ⊆ (initial path options).references := subset_foldl_addNew _ _
  exact List.Subset.trans hinitial (hfold (DirectiveLine.all text) (initial path options) [])

theorem system_mem_libraryNames (path : Path) (text : Text) (options : ProjectOptions) :
    "System" ∈ (resolve path text options).libraryNames := by
  have hsystem : Reference.library "System" ∈ implicitReferences := by simp [implicitReferences]
  exact List.mem_filterMap.mpr ⟨_, implicitReferences_subset path text options hsystem, rfl⟩

end Context

/-- What the path of a library's entity leads through is in the same library or in that of the system. -/
theorem Catalog.libraries_around :
    libraries.all (fun l => l.2.all fun e => (enclosingPaths (pathSegments e.path)).all fun p =>
      p == "System" || (l.2.map (·.path)).contains p) = true := by
  decide +kernel

theorem Catalog.system_declared : ∃ l ∈ libraries, l.1 = "System" ∧ "System" ∈ l.2.map (·.path) := by
  exact ⟨_, List.mem_cons_of_mem _ List.mem_cons_self, rfl, List.mem_cons_self⟩

theorem Entities.mem_paths_of_library {names : List String} {l : String × List Entity}
    (hl : l ∈ Catalog.libraries) (hname : l.1 ∈ names) (hp : p ∈ l.2.map (·.path)) :
    p ∈ (CheckerState.initial names).entities.paths := by
  obtain ⟨e, he, rfl⟩ := List.mem_map.mp hp
  refine List.mem_map_of_mem (List.mem_append_right _ (List.mem_flatMap.mpr ⟨l, ?_, he⟩))
  exact List.mem_filter.mpr ⟨hl, List.contains_iff_mem.mpr hname⟩

namespace CheckerState

theorem Rooted.initial {names : List String} (hsystem : "System" ∈ names) : (initial names).Rooted where
  entities := {
    around := fun outer name hmem => by
      obtain ⟨e, he, hpath⟩ := List.mem_map.mp hmem
      obtain ⟨l, hl, he⟩ := List.mem_flatMap.mp ((List.mem_append.mp he).resolve_left List.not_mem_nil)
      obtain ⟨hl, hname⟩ := List.mem_filter.mp hl
      have hlibrary := List.all_eq_true.mp (List.all_eq_true.mp Catalog.libraries_around l hl) e he
      have hp := List.all_eq_true.mp hlibrary outer (hpath ▸ mem_enclosingPaths_of_append outer name)
      rw [Bool.or_eq_true, beq_iff_eq, List.contains_iff_mem] at hp
      rcases hp with rfl | hp
      · obtain ⟨l, hl, hname, hp⟩ := Catalog.system_declared
        exact Entities.mem_paths_of_library hl (hname ▸ hsystem) hp
      · exact Entities.mem_paths_of_library hl (List.contains_iff_mem.mp hname) hp
    plain := fun p hp => by
      obtain ⟨e, he, rfl⟩ := List.mem_map.mp hp
      exact Catalog.endsPlain_of_entitiesOf ((List.mem_append.mp he).resolve_left List.not_mem_nil) }
  opens := nofun
  names := nofun
  inside hnil := absurd rfl hnil

end CheckerState

end ScriptAnalyzer

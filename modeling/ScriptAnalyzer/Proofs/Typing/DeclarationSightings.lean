import ScriptAnalyzer.Proofs.Typing.Sightings

/-!
The way of the checker through the declarations of a file records no name without reason, either.
-/

namespace ScriptAnalyzer

open CheckerState

variable {L : Landmark → Prop} {N : LongIdent → Prop} {w : Span → String} {outer : List String}
variable {n stop : Nat} {a b : Cut} {live : List (Span × Nat)} {o o' : CheckerState}

theorem Notes.adds (h : Notes L o o') : Adds L N outer n 0 o o' := by
  induction h with
  | refl o => exact .refl o
  | note hlabel _ _ ih => exact (Adds.of_mention (.note _ _ _) rfl (.label hlabel rfl)).andThen ih

theorem Fields.adds {path : String} {fields : List (Ident × TypeExpr)} {ms : List Member}
    (h : Fields L path fields ms o o') : Adds L N outer n 0 o o' := by
  induction h with
  | nil o => exact .refl o
  | cons hnotes _ ih =>
    exact hnotes.adds.andThen ((Adds.of_mention (.declareAt _ _ _) rfl (.definition rfl)).andThen ih)

theorem Fields.scope {path : String} {fields : List (Ident × TypeExpr)} {ms : List Member}
    (h : Fields L path fields ms o o') : o'.scope = o.scope := by
  induction h with
  | nil => rfl
  | cons hnotes _ ih => exact ih.trans hnotes.scope

namespace CheckerState

theorem Adds.enterModule (o : CheckerState) (path : String) (name : Option Span) (region : Span) :
    Adds L N outer n 0 o (o.enterModule path name region) := by
  have hgrows : Grows n o (o.enterModule path name region) := .enterModule o path name region
  cases name with
  | none => exact .of_grows hgrows rfl
  | some span => exact .of_mention hgrows rfl (.definition rfl)

theorem Adds.publishAll (o : CheckerState) (indices : List Nat) :
    Adds L N outer n 0 o (o.publishAll indices) :=
  .of_grows (.publishAll o indices) (publishAll_keeps
    (R := fun o' => o'.records.mentions = o.records.mentions) (fun _ _ _ _ _ h => h) rfl)

theorem scope_publishAll (o : CheckerState) (indices : List Nat) :
    (o.publishAll indices).scope = o.scope :=
  publishAll_keeps (R := fun o' => o'.scope = o.scope) (fun _ _ _ _ _ h => h) rfl

theorem scope_enterModule (o : CheckerState) (path : String) (place : Option Span) (region : Span) :
    (o.enterModule path place region).scope = { o.scope with modulePath := pathSegments path } := by
  cases place <;> rfl

theorem region_enterModule (o : CheckerState) (path : String) (place : Option Span) (region : Span) :
    ⟨region, path⟩ ∈ (o.enterModule path place region).records.regions := by
  cases place <;> exact List.mem_cons_self

namespace Opened

theorem opening {start : Nat} {region : Span} {path : String} (h : o.Opened outer start stop)
    (hstart : region.start ≤ start) (hstop : stop ≤ region.stop) (hplain : EndsPlain path) :
    (o.opening region path).Opened outer start stop where
  covered p hp := by
    have hcases : p = path ∨ p ∈ enclosingPaths o.scope.modulePath ++ o.scope.opens := by
      simpa [CheckerState.opening, or_left_comm] using hp
    rcases hcases with rfl | hp
    · exact .inr ⟨⟨region, p⟩, List.mem_cons_self, rfl, hstart, hstop⟩
    · exact (h.covered p hp).imp_right fun ⟨other, hother, hrest⟩ =>
        ⟨other, List.mem_cons_of_mem _ hother, hrest⟩
  plain p hp := by
    have hcases : p = path ∨ p ∈ o.searchPaths := by
      simpa [CheckerState.opening, searchPaths, or_left_comm] using hp
    rcases hcases with rfl | hp
    · exact hplain
    · exact h.plain p hp
  modulePath := h.modulePath

theorem publishAll {start : Nat} (h : o.Opened outer start stop) (indices : List Nat) :
    (o.publishAll indices).Opened outer start stop :=
  h.keep (n := 0) (.publishAll o indices) (by rw [scope_publishAll]) (by rw [scope_publishAll])

/-- Inside a module its path comes in front of those around it. -/
theorem enterModule {start : Nat} {name : String} {region : Span} (h : o.Opened outer start stop)
    (hstart : region.start ≤ start) (hstop : stop ≤ region.stop) (hname : IsSimpleName name)
    (place : Option Span) :
    (o.enterModule (o.qualified name) place region).Opened outer start stop := by
  have hgrows : Grows 0 o (o.enterModule (o.qualified name) place region) := .enterModule _ _ _ _
  have hscope := o.scope_enterModule (o.qualified name) place region
  have hregion := o.region_enterModule (o.qualified name) place region
  obtain ⟨hsegments, hplain⟩ : pathSegments (o.qualified name) = o.scope.modulePath ++ [name] ∧
      EndsPlain (o.qualified name) := by
    by_cases hnil : o.scope.modulePath = []
    · rw [qualified, hnil, List.isEmpty_nil, if_pos rfl]
      exact ⟨pathSegments_of_undotted hname.2, endsPlain_of_undotted hname.2⟩
    · rw [qualified, if_neg (by simpa using hnil), pathSegments_append _ hname.2,
        h.modulePath.resolve_left hnil]
      exact ⟨rfl, endsPlain_append hname.1 hname.2 _⟩
  have hjoined : joinPath (o.scope.modulePath ++ [name]) = o.qualified name := by
    rw [← hsegments, joinPath_pathSegments]
  refine ⟨fun p hp => ?_, fun p hp => ?_, ?_⟩
  · rw [hscope, hsegments, enclosingPaths_concat, hjoined, List.cons_append] at hp
    rcases List.mem_cons.mp hp with rfl | hp
    · exact .inr ⟨_, hregion, rfl, hstart, hstop⟩
    · exact (h.covered p hp).imp_right fun ⟨other, hother, hrest⟩ => ⟨other, hgrows.regions hother, hrest⟩
  · rw [searchPaths, hscope, hsegments, enclosingPaths_concat, hjoined, List.cons_append,
      Entities.autoOpened, hgrows.libraries] at hp
    rcases List.mem_cons.mp hp with rfl | hp
    · exact hplain
    · exact h.plain p hp
  · rw [hscope, joinPath_pathSegments]
    exact .inr rfl

end Opened
end CheckerState

/-- What is known in front of the declarations of a module that ends at `stop`. -/
structure DeclsReady (L : Landmark → Prop) (N : LongIdent → Prop) (w : Span → String)
    (outer : List String) (stop : Nat) (ds : List Decl) (a b : Cut) (live : List (Span × Nat))
    (o : CheckerState) : Prop where
  landmarks : ∀ m ∈ Decl.landmarksOfAll ds, L m
  spells : ∀ d ∈ Decl.exprsOfAll ds, ∀ name, d.longName? = some name → N name
  lies : DeclsLie stop ds a b
  inside : b.stop ≤ stop
  current : ∀ v ∈ live, v.1.start ≤ a.next ∧ b.stop ≤ v.1.stop
  reached : Scoped w a live o
  opened : o.Opened outer a.next b.stop

namespace DeclsReady

variable {d : Decl} {ds : List Decl} {k : Cut}

/-- Behind the first declaration, in the state that it leaves. -/
theorem behind (h : DeclsReady L N w outer stop (d :: ds) a b live o) (hak : a ≤ k)
    (hds : DeclsLie stop ds k b) (new : List (Span × Nat))
    (hnew : ∀ v ∈ new, v.1.start ≤ k.next ∧ b.stop ≤ v.1.stop) (hreached : Scoped w k (new ++ live) o')
    (hopened : o'.Opened outer k.next b.stop) :
    DeclsReady L N w outer stop ds k b (new ++ live) o' where
  landmarks := (List.forall_mem_append.mp h.landmarks).2
  spells := (List.forall_mem_append.mp h.spells).2
  lies := hds
  inside := h.inside
  current := List.forall_mem_append.mpr
    ⟨hnew, fun v hv => ⟨Nat.le_trans (h.current v hv).1 hak.2, (h.current v hv).2⟩⟩
  reached := hreached
  opened := hopened

/-- Behind a declaration that brings nothing into scope. -/
theorem step (h : DeclsReady L N w outer stop (d :: ds) a b live o) (hak : a ≤ k)
    (hds : DeclsLie stop ds k b) (hreached : Scoped w k live o') (hgrows : Grows n o o')
    (hscope : o'.scope = o.scope) : DeclsReady L N w outer stop ds k b live o' :=
  h.behind hak hds [] nofun hreached ((h.opened.mono hak.2 (Nat.le_refl _)).keep hgrows
    (congrArg (·.modulePath) hscope) (congrArg (·.opens) hscope))

/-- In front of an expression of the first declaration. -/
theorem ready {e : Expr} (h : DeclsReady L N w outer stop (d :: ds) a b live o)
    (he : e.preorder ⊆ d.exprs) (hlies : Lies [e] a k) (hds : DeclsLie stop ds k b) :
    Ready N w outer [e] a k live o where
  spells := List.forall_mem_singleton.mpr fun e' he' => h.spells e' (List.mem_append_left _ (he he'))
  lies := hlies
  covers := covers_of_lies hlies hds.le h.current
  reached := h.reached
  opened := h.opened.mono (Nat.le_refl _) hds.le.1

end DeclsReady

/-- Checking the declarations of a module that ends at `stop` adds only names that are accounted for. -/
def AddsDeclNames (L : Landmark → Prop) (N : LongIdent → Prop) (w : Span → String) (outer : List String)
    (stop : Nat) (ds : List Decl) (o o' : CheckerState) : Prop :=
  ∀ {a b live}, DeclsReady L N w outer stop ds a b live o → Adds L N outer a.stop b.stop o o'

section

variable {ds : List Decl} {span : Span} {o₁ : CheckerState}

/-- A binding of the module, and what is behind it. -/
theorem bound_adds {binding : Binding} {bound : List Nat} (hL : Written L w)
    (hN : ∀ name, N name → ∀ n ∈ name.parts, n.text ≠ "")
    (hvisited : binding.toLetHead.Visited L binding.body stop true bound o o₁)
    (hrest : AddsDeclNames L N w outer stop ds (o₁.publishAll bound) o')
    (h : DeclsReady L N w outer stop (.binding span binding :: ds) a b live o) :
    Adds L N outer a.stop b.stop o o' := by
  cases h.lies with
  | inert hinert => cases hinert
  | @binding _ _ _ _ _ m _ hhead hnext hvalueLies hds =>
    obtain ⟨hearly, hown, hvalue, hlate⟩ := hvisited
    have hexpr := h.ready (List.Subset.refl _) hvalueLies hds
    obtain ⟨hadds, hmodule, hopens⟩ :=
      binding_adds hL hearly hown (fun h => (hvalue.adds hL hN h).1) hlate hhead hexpr
    obtain ⟨new, hscoped, hnew⟩ := binding_scoped hL hearly hown (hvalue.scoped hL hvalueLies) hlate hhead
      hexpr.covers h.reached
    have hopened := (h.opened.mono hvalueLies.le.2 (Nat.le_refl _)).keep hadds.grows hmodule hopens
    have hbehind := hrest (h.behind hvalueLies.le hds new
      (fun v hv => ⟨Nat.le_trans (hnew v hv).2.1 hnext, (hnew v hv).2.2 ▸ h.inside⟩)
      (hscoped.keep (.publishAll _ _)) (hopened.publishAll _))
    exact hadds.trans ((Adds.publishAll o₁ _).andThen hbehind) hvalueLies.le.1 (Nat.le_refl _) hds.le.1

/-- An opening, and what is behind it up to the end of the module. -/
theorem opening_adds {name : LongIdent} {path : String}
    (hsimple : ∀ (m : Landmark) (n : Ident), L m → m.source = n.source → IsSimpleName n.text)
    (hpath : o.entity? name.segments = some path) (hnotes : Notes L o o₁)
    (hrest : AddsDeclNames L N w outer stop ds (o₁.opening ⟨span.stop, stop⟩ path) o')
    (h : DeclsReady L N w outer stop (.open span name :: ds) a b live o) :
    Adds L N outer a.stop b.stop o o' := by
  cases h.lies with
  | inert hinert => cases hinert
  | @opening _ _ _ _ _ m _ ham _ hnext _ hds =>
    have hplain : EndsPlain path := by
      obtain ⟨p, -, rfl⟩ := path_of_entity? hpath
      refine endsPlain_qualify (segments_ne_nil name) (fun x hx => ?_) p
      obtain ⟨n, hn, rfl⟩ := List.mem_map.mp hx
      exact hsimple (.label n) n (h.landmarks _ (List.mem_append_left _ (List.mem_map_of_mem hn))) rfl
    have hnoted : Adds L N outer a.stop 0 o o₁ := hnotes.adds
    have hfound := (h.opened.mono ham.2 (Nat.le_refl _)).keep hnoted.grows
      (congrArg (·.modulePath) hnotes.scope) (congrArg (·.opens) hnotes.scope)
    have hopened : (o₁.opening ⟨span.stop, stop⟩ path).Opened outer m.next b.stop :=
      hfound.opening hnext h.inside hplain
    have hscoped := (h.reached.keep hnotes.sameScope).keep (.opening o₁ ⟨span.stop, stop⟩ path)
    have hbehind := hrest (h.behind ham hds [] nofun (hscoped.later ham) hopened)
    exact hnoted.andThen ((Adds.of_grows (.opening _ _ _) rfl).trans hbehind ham.1 (Nat.zero_le _)
      (Nat.zero_le _))

/-- A module inside the module, and what is behind it. -/
theorem module_adds {name : Ident} {members : List Decl} (hL : Written L w)
    (hsimple : ∀ (m : Landmark) (n : Ident), L m → m.source = n.source → IsSimpleName n.text)
    (hvisit : DeclsVisit L span.stop members (o.enterModule (o.qualified name.text) (some name.span) span) o₁)
    (hmembers : AddsDeclNames L N w outer span.stop members
      (o.enterModule (o.qualified name.text) (some name.span) span) o₁)
    (hrest : AddsDeclNames L N w outer stop ds { o₁ with scope := o.scope } o')
    (h : DeclsReady L N w outer stop (.module span name members :: ds) a b live o) :
    Adds L N outer a.stop b.stop o o' := by
  cases h.lies with
  | inert hinert => cases hinert
  | @module _ _ _ _ _ _ l m k _ hal _ hstart hmembersLie hend hmk hclosed hds =>
    have hmb := Nat.le_trans hmk.1 hds.le.1
    have hname : IsSimpleName name.text :=
      hsimple (.binding name) name (h.landmarks _ (List.mem_append_left _ List.mem_cons_self)) rfl
    have hinner : DeclsReady L N w outer span.stop members l m live
        (o.enterModule (o.qualified name.text) (some name.span) span) := {
      landmarks := fun m hm => h.landmarks m (List.mem_append_left _ (List.mem_cons_of_mem _ hm))
      spells := fun d hd => h.spells d (List.mem_append_left _ hd)
      lies := hmembersLie
      inside := hend
      current := fun v hv =>
        ⟨Nat.le_trans (h.current v hv).1 hal.2, Nat.le_trans hmb (h.current v hv).2⟩
      reached := (h.reached.keep (.enterModule _ _ _ _)).later hal
      opened := (h.opened.mono hal.2 hmb).enterModule hstart hend hname _ }
    have hadds : Adds L N outer a.stop m.stop o o₁ :=
      (Adds.enterModule o _ _ _).trans (hmembers hinner) hal.1 (Nat.zero_le _) (Nat.zero_le _)
    obtain ⟨new, hscoped₁, hnew⟩ := hvisit.scoped hL hmembersLie hend hinner.current hinner.reached
    have hscoped₂ := (hscoped₁.later hmk).close h.reached.scope fun v hv => hnew v hv ▸ hclosed
    have hak := Cut.le_trans hal (Cut.le_trans hmembersLie.le hmk)
    have hbehind := hrest (h.step hak hds hscoped₂ (hadds.grows.trans (.scope o₁ o.scope)) rfl)
    exact hadds.trans ((Adds.of_grows (.scope o₁ o.scope) rfl).andThen hbehind) hak.1 hmk.1 hmb

/-- A record, and what is behind it. -/
theorem record_adds {name : Ident} {fields : List (Ident × TypeExpr)} {path : String} {ms : List Member}
    (hfields : Fields L path fields ms (o.declare (.ofType path name.span [])) o₁)
    (hrest : AddsDeclNames L N w outer stop ds
      (({ o₁ with entities := o.entities.declare (.ofType path name.span ms) }).declareAt name.span
        (.fixed (Entity.ofType path name.span ms).symbol)) o')
    (h : DeclsReady L N w outer stop (.type span name (.record fields) :: ds) a b live o) :
    Adds L N outer a.stop b.stop o o' := by
  let o₂ : CheckerState := { o₁ with entities := o.entities.declare (.ofType path name.span ms) }
  have hlibraries : (o.entities.declare (.ofType path name.span ms)).libraries = o₁.entities.libraries := by
    rw [hfields.entities]
    rfl
  have hdeclares : Adds L N outer a.stop 0 o (o.declare (.ofType path name.span [])) :=
    .of_grows (.entities o rfl) rfl
  have hadds : Adds L N outer a.stop 0 o
      (o₂.declareAt name.span (.fixed (Entity.ofType path name.span ms).symbol)) :=
    hdeclares.andThen (hfields.adds.andThen ((Adds.of_grows (.entities o₁ hlibraries) rfl).andThen
      (.of_mention (.declareAt o₂ _ _) rfl (.definition rfl))))
  have hdeclared := h.reached.keep (.entities o (o.entities.declare (.ofType path name.span [])))
  have hscoped := ((hdeclared.keep hfields.sameScope).keep (.entities o₁ o₂.entities)).keep
    (.declareAt o₂ name.span (.fixed (Entity.ofType path name.span ms).symbol))
  exact hadds.andThen (hrest (h.step (Cut.le_refl a) h.lies.tail hscoped hadds.grows hfields.scope))

end

/-- What a way through the declarations of a module adds. -/
theorem DeclsVisit.adds (hL : Written L w) (hN : ∀ name, N name → ∀ n ∈ name.parts, n.text ≠ "")
    (hsimple : ∀ (m : Landmark) (n : Ident), L m → m.source = n.source → IsSimpleName n.text) {ds : List Decl}
    (h : DeclsVisit L stop ds o o') (hready : DeclsReady L N w outer stop ds a b live o) :
    Adds L N outer a.stop b.stop o o' := by
  induction h generalizing a b live with
  | nil o => exact .refl o
  | skip _ ih =>
    exact ih (hready.step (Cut.le_refl a) hready.lies.tail hready.reached (.refl 0 _) rfl)
  | expr he _ ih =>
    cases hready.lies with
    | inert hinert => cases hinert
    | @expr _ _ _ _ _ m _ heLies hds =>
      have hexpr := hready.ready (List.Subset.refl _) heLies hds
      have hadds := (he.adds hL hN hexpr).1
      have hscoped := he.scoped hL heLies hexpr.covers hready.reached
      exact hadds.trans (ih (hready.step heLies.le hds hscoped hadds.grows he.scope)) heLies.le.1
        (Nat.le_refl _) hds.le.1
  | binding hvisited _ ih => exact bound_adds hL hN hvisited (fun h => ih h) hready
  | opening hpath hnotes _ ih => exact opening_adds hsimple hpath hnotes (fun h => ih h) hready
  | module hvisit _ ih₁ ih₂ =>
    exact module_adds hL hsimple hvisit (fun h => ih₁ h) (fun h => ih₂ h) hready
  | record _ hfields _ ih => exact record_adds hfields (fun h => ih h) hready
  | @abbreviation _ _ name _ symbol _ o o₁ _ _ hnotes _ ih =>
    have hadds : Adds L N outer a.stop 0 o (o₁.declareAt name.span (.fixed symbol)) :=
      hnotes.adds.andThen (.of_mention (.declareAt _ _ _) rfl (.definition rfl))
    have hscoped := (hready.reached.keep hnotes.sameScope).keep (.declareAt o₁ name.span (.fixed symbol))
    exact hadds.andThen (ih (hready.step (Cut.le_refl a) hready.lies.tail hscoped hadds.grows hnotes.scope))

/-! Whole files -/

namespace Decl

mutual

theorem names_of_mem_exprs {e : Expr} (d : Decl) (h : e ∈ d.exprs) : e.names ⊆ namesOfAll [d] := by
  intro n hn
  rw [namesOfAll, landmarksOfAll, landmarksOfAll, List.append_nil]
  match d, h with
  | .binding _ b, h =>
    rw [landmarks, Binding.landmarks, List.filterMap_append]
    exact List.mem_append_right _ (Expr.names_of_mem_preorder h hn)
  | .module _ name ds, h => exact names_of_mem_exprsOfAll ds h hn
  | .expr _ _, h => exact Expr.names_of_mem_preorder h hn

theorem names_of_mem_exprsOfAll {e : Expr} (ds : List Decl) (h : e ∈ exprsOfAll ds) :
    e.names ⊆ namesOfAll ds := by
  match ds, h with
  | d :: ds, h =>
    have hsplit : namesOfAll (d :: ds) = namesOfAll [d] ++ namesOfAll ds := by
      simp [namesOfAll, landmarksOfAll]
    rw [hsplit]
    rcases List.mem_append.mp h with h | h
    · exact List.Subset.trans (names_of_mem_exprs d h) (List.subset_append_left _ _)
    · exact List.Subset.trans (names_of_mem_exprsOfAll ds h) (List.subset_append_right _ _)

end

end Decl

namespace Catalog

theorem libraries_endsPlain :
    libraries.all (fun l => l.2.all fun e => decide (EndsPlain e.path)) = true := by
  decide +kernel

theorem endsPlain_of_entitiesOf {names : List String} {e : Entity} (h : e ∈ entitiesOf names) :
    EndsPlain e.path := by
  obtain ⟨l, hl, he⟩ := List.mem_flatMap.mp h
  have hlibrary := List.all_eq_true.mp libraries_endsPlain l (List.mem_filter.mp hl).1
  exact of_decide_eq_true (List.all_eq_true.mp hlibrary e he)

end Catalog

namespace SyntaxFile

/-- The namespaces around the module of the file. The checker searches them for names, but records no
part of the text for them. -/
def outerPaths (f : SyntaxFile) : List String :=
  (f.moduleName?.map fun path => (enclosingPaths (pathSegments path)).tail).getD []

/-- The dotted names that the file spells. -/
def Spells (f : SyntaxFile) (name : LongIdent) : Prop :=
  ∃ e ∈ Decl.exprsOfAll f.decls, e.longName? = some name

theorem startOutline_opened (f : SyntaxFile) (context : Context)
    (hmodule : ∀ path ∈ f.moduleName?, "" ∉ pathSegments path) (start : Nat) :
    (f.startOutline context).Opened f.outerPaths start f.text.byteSize := by
  have hauto : ∀ p ∈ (CheckerState.initial context.libraryNames).entities.autoOpened, EndsPlain p := by
    intro p hp
    obtain ⟨e, he, rfl⟩ := List.mem_map.mp hp
    exact Catalog.endsPlain_of_entitiesOf (List.mem_filter.mp he).1
  have hempty : EndsPlain "" := by decide
  unfold startOutline outerPaths
  cases hname : f.moduleName? with
  | none => exact ⟨nofun, List.forall_mem_cons.mpr ⟨hempty, hauto⟩, .inl rfl⟩
  | some path =>
    let o := CheckerState.initial context.libraryNames
    let place := f.header.map LongIdent.span
    let region : Span := ⟨0, f.text.byteSize⟩
    have hscope := o.scope_enterModule path place region
    have hgrows : Grows 0 o (o.enterModule path place region) := .enterModule o path place region
    have hpaths : enclosingPaths (o.enterModule path place region).scope.modulePath =
        path :: (enclosingPaths (pathSegments path)).tail := by
      rw [hscope]
      exact enclosingPaths_pathSegments path
    have hopens : (o.enterModule path place region).scope.opens = [] := by
      rw [hscope]
      rfl
    change (o.enterModule path place region).Opened (enclosingPaths (pathSegments path)).tail start
      f.text.byteSize
    refine ⟨fun p hp => ?_, fun p hp => ?_, ?_⟩
    · rw [hpaths, hopens, List.append_nil] at hp
      rcases List.mem_cons.mp hp with rfl | hp
      · exact .inr ⟨_, o.region_enterModule p place region, rfl, Nat.zero_le _, Nat.le_refl _⟩
      · exact .inl hp
    · rw [searchPaths, hopens, List.append_nil, hscope, Entities.autoOpened, hgrows.libraries] at hp
      rcases List.mem_append.mp hp with hp | hp
      · obtain ⟨n, -, rfl⟩ := mem_enclosingPaths hp
        refine endsPlain_qualify ?_ (fun x hx => ?_) ""
        · simp [pathSegments_ne_nil]
        · have hx := List.mem_of_mem_take hx
          refine ⟨fun hnil => hmodule path hname ?_, undotted_of_mem_pathSegments hx⟩
          rwa [← String.toList_eq_nil_iff.mp hnil]
      · exact (List.forall_mem_cons.mpr ⟨hempty, hauto⟩) p hp
    · rw [hscope]
      exact .inr (by rw [joinPath_pathSegments])

theorem startOutline_mentions (f : SyntaxFile) (context : Context) :
    ∀ m ∈ (f.startOutline context).records.mentions, m.isDefinition = true := by
  unfold startOutline
  cases f.moduleName? with
  | none => exact nofun
  | some path =>
    cases f.header with
    | none => exact nofun
    | some name => exact List.forall_mem_singleton.mpr rfl

variable (path : Path) (text : Text) (kind : SourceKind) (defines : List String)

theorem simpleName_of_spells {name : LongIdent} (h : (parse path text kind defines).Spells name) :
    ∀ n ∈ name.parts, IsSimpleName n.text := by
  intro n hn
  obtain ⟨e, he, hname⟩ := h
  have hnames := Decl.names_of_mem_exprsOfAll _ he (Expr.parts_of_longName hname n hn)
  obtain ⟨m, hm, hnamed⟩ := List.mem_filterMap.mp hnames
  have hspelled := landmark_spelled path text kind defines (List.mem_append_right _ hm)
    (Landmark.source_of_named hnamed)
  exact ⟨hspelled.nonempty, hspelled.undotted⟩

/-- Every name that checking a file records is accounted for. -/
theorem endState_accounts (context : Context)
    (hmodule : ∀ p ∈ (parse path text kind defines).moduleName?, "" ∉ pathSegments p) :
    let f := parse path text kind defines
    ∀ m ∈ (f.endState context).records.mentions,
      Accounts (· ∈ f.landmarks) f.Spells f.outerPaths text.byteSize (f.endState context).outline m := by
  intro f m hm
  have hL : Written (· ∈ f.landmarks) fun span => span.text text := {
    use := fun _ hn => (landmark_spelled path text kind defines hn rfl).written
    undotted := fun _ hn => (landmark_spelled path text kind defines hn rfl).undotted }
  have hN : ∀ name, f.Spells name → ∀ n ∈ name.parts, n.text ≠ "" := by
    intro name hname n hn hempty
    have hsimple := simpleName_of_spells path text kind defines hname n hn
    exact hsimple.1 (by rw [hempty]; rfl)
  have hsimple : ∀ (m : Landmark) (n : Ident), m ∈ f.landmarks → m.source = n.source →
      IsSimpleName n.text := fun m n hm hn =>
    have hspelled := landmark_spelled path text kind defines hm hn
    ⟨hspelled.nonempty, hspelled.undotted⟩
  obtain ⟨a, b, hlies, hstop⟩ := decls_lie path text kind defines
  have hdecls : ∀ m ∈ Decl.landmarksOfAll f.decls, m ∈ f.landmarks :=
    fun m hm => List.mem_append_right _ hm
  have hready : DeclsReady (· ∈ f.landmarks) f.Spells (fun span => span.text text) f.outerPaths
      text.byteSize f.decls a b [] (f.startOutline context) := {
    landmarks := hdecls
    spells := fun e he name hname => ⟨e, he, hname⟩
    lies := hlies
    inside := hstop
    current := nofun
    reached := f.startOutline_scoped context _ a
    opened := (f.startOutline_opened context hmodule a.next).mono (Nat.le_refl _) hstop }
  have hadds := (f.endState_visited context hdecls).adds hL hN hsimple hready
  rcases hadds.mentions m hm with hm | haccounts
  · exact .definition (f.startOutline_mentions context m hm)
  · exact haccounts.keep (.refl _ _) hstop

end SyntaxFile

end ScriptAnalyzer

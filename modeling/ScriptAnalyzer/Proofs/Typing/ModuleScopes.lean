import ScriptAnalyzer.Proofs.Typing.Roots
import ScriptAnalyzer.Proofs.Typing.TypeScoping

/-!
The scope behind expressions, bindings and modules.

Expressions leave the scope as it is, a binding puts the binders on top that it returns, and declarations put binders
and opened entities on top. So what stands below is untouched, and behind a module the scope is what it was in front
of it. What the module declares has a path inside the path of the module: no name without qualification leads there,
unless a path is open that leads there. The labels of records are the exception.
-/

namespace ScriptAnalyzer

/-- The scope with binders and opened entities on top. -/
def CheckerScope.push (c : CheckerScope) (bound : List Nat) (opened : List String) : CheckerScope :=
  { c with binders := bound ++ c.binders, opens := opened ++ c.opens }

theorem CheckerScope.push_push (c : CheckerScope) (bound bound' : List Nat) (opened opened' : List String) :
    (c.push bound opened).push bound' opened' = c.push (bound' ++ bound) (opened' ++ opened) := by
  simp [push]

/-! What the way through the text does to the scope -/

section

open CheckerState

variable {L : Landmark → Prop} {o o' : CheckerState}

theorem Enters.scope {visible : Span} {ofModule : Bool} {names : List Ident} {is : List Nat}
    (h : Enters L visible ofModule names is o o') : o'.scope = o.scope.push is.reverse [] := by
  induction h with
  | nil => rfl
  | note _ _ _ ih | skip _ ih => exact ih
  | @bind _ _ is o _ _ _ _ _ _ _ _ ih =>
    rw [ih, List.reverse_cons, ← List.append_nil [], ← CheckerScope.push_push]
    rfl

theorem LetHead.Visited.scope {head : LetHead} {value : Expr} {stop : Nat} {ofModule : Bool} {bound : List Nat}
    (h : head.Visited L value stop ofModule bound o o') : o'.scope = o.scope.push bound.reverse [] := by
  obtain ⟨hearly, -, -, hlate⟩ := h
  rw [hlate.scope, settle_scope, List.reverse_append, ← List.append_nil [], ← CheckerScope.push_push, ← hearly.scope]
  rfl

theorem LetHead.Visited.entities {head : LetHead} {value : Expr} {stop : Nat} {ofModule : Bool} {bound : List Nat}
    (h : head.Visited L value stop ofModule bound o o') : o'.entities = o.entities := by
  obtain ⟨hearly, hown, hvalue, hlate⟩ := h
  rw [hlate.entities, entities_settle]
  exact hvalue.entities.trans (hown.entities.trans hearly.entities)

theorem DeclsVisit.scope {stop : Nat} {ds : List Decl} (h : DeclsVisit L stop ds o o') :
    ∃ bound opened, o'.scope = o.scope.push bound opened := by
  induction h with
  | nil => exact ⟨[], [], rfl⟩
  | skip _ ih | module _ _ _ ih => exact ih
  | expr hvisits _ ih => exact hvisits.scope ▸ ih
  | abbreviation _ hnotes _ ih => exact hnotes.scope ▸ ih
  | record _ hfields _ ih => exact hfields.scope ▸ ih
  | binding hvisited _ ih =>
    obtain ⟨bound, opened, hscope⟩ := ih
    rw [scope_publishAll, hvisited.scope, CheckerScope.push_push] at hscope
    exact ⟨_, _, hscope⟩
  | @opening _ _ _ path _ _ _ _ _ hnotes _ ih =>
    obtain ⟨bound, opened, hscope⟩ := ih
    refine ⟨bound, opened ++ [path], ?_⟩
    rw [hscope, CheckerState.opening, hnotes.scope]
    simp [CheckerScope.push]

end

/-! Paths inside a path -/

/-- The path of something inside the entity at `path`. -/
def IsInside (path p : String) : Prop := ∃ rest, p = path ++ "." ++ rest

section

variable {path p q : String} {segments : List String}

theorem IsInside.trans (h : IsInside path p) (h' : IsInside p q) : IsInside path q := by
  obtain ⟨rest, rfl⟩ := h
  obtain ⟨rest', rfl⟩ := h'
  exact ⟨rest ++ "." ++ rest', by simp only [String.append_assoc]⟩

theorem IsInside.length_lt (h : IsInside path p) : path.length < p.length := by
  obtain ⟨rest, rfl⟩ := h
  simp only [String.length_append]
  exact Nat.lt_of_lt_of_le (Nat.lt_add_of_pos_right (by decide)) (Nat.le_add_right _ _)

/-- The path leads to no part of the entity at `path`. -/
def IsApart (path p : String) : Prop := p ≠ path ∧ ¬IsInside path p

/-- A single name leads inside only from a place inside. -/
theorem IsApart.qualify {name : String} (h : IsApart path p) (hname : '.' ∉ name.toList) :
    ¬IsInside path (qualify p name) := by
  rintro ⟨rest, hrest⟩
  by_cases hp : p = ""
  · rw [hp, qualify_empty] at hrest
    exact ne_append_of_undotted hname hrest
  · rw [qualify_of_ne hp] at hrest
    obtain heq | ⟨between, hbetween⟩ := eq_or_of_append_undotted hname hrest
    · exact h.1 heq.symm
    · exact h.2 ⟨between, hbetween⟩

theorem joinPath_append {front back : List String} (hfront : front ≠ []) (hback : back ≠ []) :
    joinPath (front ++ back) = joinPath front ++ "." ++ joinPath back := by
  induction front with
  | nil => exact absurd rfl hfront
  | cons x front ih =>
    cases front with
    | nil => rw [List.singleton_append, joinPath_cons x hback, joinPath_singleton]
    | cons y front =>
      rw [List.cons_append, joinPath_cons x (by simp), ih (by simp), joinPath_cons x (by simp)]
      simp only [String.append_assoc]

/-- What is declared in a module is inside each module around. -/
theorem inside_of_enclosing (hq : q ∈ enclosingPaths segments) (name : String) :
    IsInside q (joinPath segments ++ "." ++ name) := by
  obtain ⟨n, hn, rfl⟩ := mem_enclosingPaths hq
  have htake : segments.take (n + 1) ≠ [] := List.ne_nil_of_length_pos (by rw [List.length_take]; omega)
  by_cases hdrop : segments.drop (n + 1) = []
  · have hall := List.take_append_drop (n + 1) segments
    rw [hdrop, List.append_nil] at hall
    exact ⟨name, by rw [hall]⟩
  · refine ⟨joinPath (segments.drop (n + 1)) ++ "." ++ name, ?_⟩
    conv_lhs => rw [← List.take_append_drop (n + 1) segments, joinPath_append htake hdrop]
    simp only [String.append_assoc]

theorem foldl_qualify_of_ne (hp : p ≠ "") (hsegments : segments ≠ []) :
    segments.foldl qualify p = p ++ "." ++ joinPath segments := by
  induction segments generalizing p with
  | nil => exact absurd rfl hsegments
  | cons segment segments ih =>
    rw [List.foldl_cons, qualify_of_ne hp]
    by_cases hnil : segments = []
    · rw [hnil, List.foldl_nil, joinPath_singleton]
    · rw [ih (by simp [hp]) hnil, joinPath_cons segment hnil]
      simp only [String.append_assoc]

theorem foldl_qualify_cons {x : String} (hx : x ≠ "") : (x :: segments).foldl qualify "" = joinPath (x :: segments) := by
  rw [List.foldl_cons, qualify_empty]
  by_cases hnil : segments = []
  · rw [hnil, List.foldl_nil, joinPath_singleton]
  · rw [foldl_qualify_of_ne hx hnil, joinPath_cons x hnil]

/-! A path that starts with dots -/

/-- Where the namespaces around the module at a path lead: to the path without the dots that it starts with. -/
def spot (path : String) : String := (pathSegments path).foldl qualify ""

theorem spot_of_head (h : (pathSegments path).head? ≠ some "") : spot path = path := by
  obtain ⟨x, segments, hsegments⟩ := List.exists_cons_of_ne_nil (pathSegments_ne_nil path)
  have hjoin := joinPath_pathSegments path
  rw [hsegments] at h hjoin
  rw [spot, hsegments, foldl_qualify_cons, hjoin]
  rintro rfl
  exact h rfl

theorem head_spot (h : spot path ≠ "") : (pathSegments (spot path)).head? ≠ some "" := by
  have hundotted : ∀ x ∈ pathSegments path, '.' ∉ x.toList := fun _ => undotted_of_mem_pathSegments
  unfold spot at h ⊢
  generalize pathSegments path = segments at h hundotted ⊢
  induction segments with
  | nil => exact absurd rfl h
  | cons x segments ih =>
    obtain ⟨hx, hrest⟩ := List.forall_mem_cons.mp hundotted
    by_cases hempty : x = ""
    · subst hempty
      exact ih h hrest
    · rw [foldl_qualify_cons hempty, pathSegments_joinPath (List.cons_ne_nil _ _) hundotted]
      simpa using hempty

theorem IsInside.head (h : IsInside path p) : (pathSegments p).head? = (pathSegments path).head? := by
  obtain ⟨rest, rfl⟩ := h
  rw [pathSegments_join, List.head?_append_of_ne_nil _ (pathSegments_ne_nil path)]

theorem spot_append (h : spot path ≠ "") (name : String) : spot (path ++ "." ++ name) = spot path ++ "." ++ name := by
  have hfold := foldl_qualify_of_ne h (pathSegments_ne_nil name)
  rw [joinPath_pathSegments] at hfold
  rw [← hfold, spot, spot, pathSegments_join, List.foldl_append]

/-- The path leads neither to a part of the module at `path` nor to a part of its last namespace. -/
structure IsOutside (path p : String) : Prop where
  module : IsApart path p
  space : IsApart (spot path) p

theorem IsInside.apart (h : IsInside p path) : IsApart path p := by
  refine ⟨?_, fun hback => Nat.lt_asymm h.length_lt hback.length_lt⟩
  rintro rfl
  exact Nat.lt_irrefl _ h.length_lt

/-- What is around a module is outside of it. -/
theorem IsInside.outside (h : IsInside p path) (hspot : spot path ≠ "") : IsOutside path p := by
  have happart := h.apart
  have hsame (hhead : (pathSegments p).head? = (pathSegments (spot path)).head?) : spot path = path := by
    apply spot_of_head
    rw [h.head, hhead]
    exact head_spot hspot
  refine ⟨happart, ?_, ?_⟩
  · rintro rfl
    exact happart.1 (hsame rfl)
  · intro hinside
    have heq := hsame hinside.head
    rw [heq] at hinside
    exact happart.2 hinside

/-- What is outside of a module is outside of each one in it. -/
theorem IsOutside.inner (h : IsOutside path p) (hspot : spot path ≠ "") (name : String) :
    IsOutside (path ++ "." ++ name) p := by
  have happart {q : String} (h : IsApart q p) : IsApart (q ++ "." ++ name) p := by
    refine ⟨?_, fun hinside => h.2 (IsInside.trans ⟨name, rfl⟩ hinside)⟩
    rintro rfl
    exact h.2 ⟨name, rfl⟩
  refine ⟨happart h.module, ?_⟩
  rw [spot_append hspot]
  exact happart h.space

end

namespace Entities

/-! The namespaces around a module -/

/-- The paths that the segments lead through behind `before`. -/
def spaces (before : String) : List String → List String
  | [] => []
  | segment :: segments => qualify before segment :: spaces (qualify before segment) segments

variable {before path p q : String} {segments segments' : List String} {es es₁ es' : Entities}

theorem spaces_append (before : String) (segments segments' : List String) :
    spaces before (segments ++ segments') = spaces before segments ++ spaces (segments.foldl qualify before) segments' := by
  induction segments generalizing before with
  | nil => rfl
  | cons segment segments ih => rw [List.cons_append, spaces, ih, spaces, List.cons_append, List.foldl_cons]

theorem inside_of_mem_spaces (hbefore : before ≠ "") (hq : q ∈ spaces before segments) : IsInside before q := by
  induction segments generalizing before with
  | nil => cases hq
  | cons segment segments ih =>
    have hinner : IsInside before (qualify before segment) := ⟨segment, qualify_of_ne hbefore segment⟩
    rcases List.mem_cons.mp hq with rfl | hq
    · exact hinner
    · refine hinner.trans (ih ?_ hq)
      intro hempty
      have hlt := hinner.length_lt
      rw [hempty] at hlt
      exact Nat.not_lt_zero _ hlt

theorem foldl_mem_spaces (before : String) (hsegments : segments ≠ []) :
    segments.foldl qualify before ∈ spaces before segments := by
  induction segments generalizing before with
  | nil => exact absurd rfl hsegments
  | cons segment segments ih =>
    rw [List.foldl_cons, spaces]
    by_cases hnil : segments = []
    · rw [hnil]
      exact List.mem_cons_self
    · exact List.mem_cons_of_mem _ (ih _ hnil)

theorem find?_declare_of_ne {e : Entity} (h : p ≠ e.path) : (es.declare e).find? p = es.find? p := by
  rw [find?, all, declare, List.cons_append, List.find?_cons_of_neg]
  · rfl
  · simpa using h.symm

theorem find?_declare (es : Entities) (e : Entity) : (es.declare e).find? e.path = some e := by
  simp [find?, all, declare]

theorem withNamespaces_cons (es : Entities) (path before segment : String) (segments : List String) :
    es.withNamespaces path before (segment :: segments) =
      (if qualify before segment != path && !es.contains (qualify before segment) then
        es.declare { path := qualify before segment, kind := .nameSpace } else es).withNamespaces path
          (qualify before segment) segments := rfl

/-- A namespace that was not there has no members. -/
theorem find?_withNamespaces (es : Entities) (path before : String) (segments : List String) (p : String) :
    (es.withNamespaces path before segments).find? p = es.find? p ∨
      p ∈ spaces before segments ∧ es.find? p = none ∧
        (es.withNamespaces path before segments).find? p = some { path := p, kind := .nameSpace } := by
  induction segments generalizing es before with
  | nil => exact .inl rfl
  | cons segment segments ih =>
    rw [withNamespaces_cons, spaces]
    generalize qualify before segment = inner
    split
    case isFalse => exact (ih es inner).imp_right (.imp_left (List.mem_cons_of_mem _))
    case isTrue hnew =>
      rw [Bool.and_eq_true, Bool.not_eq_true', contains, Option.isSome_eq_false_iff, Option.isNone_iff_eq_none] at hnew
      by_cases hp : p = inner
      · subst hp
        have hfound := find?_declare es { path := p, kind := .nameSpace }
        refine .inr ⟨List.mem_cons_self, hnew.2, ?_⟩
        rcases ih (es.declare { path := p, kind := .nameSpace }) p with heq | ⟨-, -, hspace⟩
        · exact heq.trans hfound
        · exact hspace
      · have hother : (es.declare { path := inner, kind := .nameSpace }).find? p = es.find? p := find?_declare_of_ne hp
        rw [← hother]
        exact (ih _ inner).imp_right (.imp_left (List.mem_cons_of_mem _))

theorem mem_paths_withNamespaces (es : Entities) (path before : String) (segments : List String) :
    ∀ q ∈ spaces before segments, q ≠ path → q ∈ (es.withNamespaces path before segments).paths := by
  induction segments generalizing es before with
  | nil =>
    intro q hq
    cases hq
  | cons segment segments ih =>
    intro q hq hpath
    rw [withNamespaces_cons]
    rw [spaces] at hq
    generalize qualify before segment = inner at hq ⊢
    rcases List.mem_cons.mp hq with rfl | hq
    · apply paths_withNamespaces
      split
      case isTrue => exact List.mem_cons_self
      case isFalse hthere =>
        refine contains_iff.mp ?_
        simpa [hpath] using hthere
    · exact ih _ inner q hq hpath

/-- What is declared from `es` to `es'` is at the path or inside it. -/
structure Fills (path : String) (es es' : Entities) : Prop where
  libraries : es'.libraries = es.libraries
  outside : ∀ p, IsOutside path p → es'.find? p = es.find? p
  paths : es.paths ⊆ es'.paths

namespace Fills

theorem refl (path : String) (es : Entities) : Fills path es es := ⟨rfl, fun _ _ => rfl, List.Subset.refl _⟩

theorem trans (h : Fills path es es₁) (h' : Fills path es₁ es') : Fills path es es' where
  libraries := h'.libraries.trans h.libraries
  outside p hp := (h'.outside p hp).trans (h.outside p hp)
  paths := List.Subset.trans h.paths h'.paths

theorem widen {name : String} (h : Fills (path ++ "." ++ name) es es') (hspot : spot path ≠ "") :
    Fills path es es' :=
  ⟨h.libraries, fun p hp => h.outside p (hp.inner hspot name), h.paths⟩

theorem declare {e : Entity} (he : IsInside path e.path ∨ e.path = path) : Fills path es (es.declare e) where
  libraries := rfl
  outside p hp := by
    apply find?_declare_of_ne
    rintro rfl
    exact he.elim hp.module.2 hp.module.1
  paths := List.subset_cons_self _ _

theorem modifyDeclared {f : Entity → Entity} (hf : ∀ e, (f e).path = e.path) :
    Fills path es (es.modifyDeclared path f) where
  libraries := rfl
  outside p hp := by
    have hfirst (l : List Entity) : (modifyFirst path f l ++ es.libraries).find? (·.path == p) =
        (l ++ es.libraries).find? (·.path == p) := by
      induction l with
      | nil => rfl
      | cons e l ih =>
        rw [modifyFirst]
        split
        case isTrue he =>
          have hne : ((f e).path == p) = false := by simpa [hf, he] using hp.module.1.symm
          have hne' : (e.path == p) = false := by simpa [he] using hp.module.1.symm
          rw [List.cons_append, List.cons_append, List.find?_cons, List.find?_cons, hne, hne']
        case isFalse => rw [List.cons_append, List.cons_append, List.find?_cons, List.find?_cons, ih]
    exact hfirst es.declared
  paths := by rw [paths_modifyDeclared _ _ hf]; exact List.Subset.refl _

/-- Around a module that is inside another one the namespaces are there already. -/
theorem withNamespaces {name : String} (hspot : spot path ≠ "")
    (haround : ∀ q ∈ spaces "" (pathSegments path), q ∈ es.paths) :
    Fills path es (es.withNamespaces (path ++ "." ++ name) "" (pathSegments (path ++ "." ++ name))) where
  libraries := libraries_withNamespaces _ _ _ _
  outside p hp := by
    refine (find?_withNamespaces es _ _ _ p).resolve_right ?_
    rintro ⟨hspace, hnone, -⟩
    rw [pathSegments_join, spaces_append] at hspace
    rcases List.mem_append.mp hspace with hspace | hspace
    · have hthere := contains_iff.mpr (haround p hspace)
      rw [contains, hnone] at hthere
      cases hthere
    · exact hp.space.2 (inside_of_mem_spaces hspot hspace)
  paths := paths_withNamespaces _ _ _ _

end Fills
end Entities

namespace CheckerState

open Entities

variable {L : Landmark → Prop} {path : String} {o o' : CheckerState}

theorem qualified_of_modulePath (h : o.scope.modulePath = pathSegments path) (name : String) :
    o.qualified name = path ++ "." ++ name := by
  rw [qualified, if_neg, h, joinPath_pathSegments]
  rw [h, List.isEmpty_iff]
  exact pathSegments_ne_nil path

/-- The place is in the module at `path`, and the module is there with the namespaces around it. -/
structure InModule (path : String) (o : CheckerState) : Prop where
  modulePath : o.scope.modulePath = pathSegments path
  spot : spot path ≠ ""
  around : ∀ q ∈ spaces "" (pathSegments path), q ∈ o.entities.paths

namespace InModule

theorem keep (h : o.InModule path) (hmodule : o'.scope.modulePath = o.scope.modulePath)
    (hpaths : o.entities.paths ⊆ o'.entities.paths) : o'.InModule path :=
  ⟨hmodule.trans h.modulePath, h.spot, fun q hq => hpaths (h.around q hq)⟩

end InModule

theorem entities_enterModule (o : CheckerState) (path : String) (place : Option Span) (region : Span) :
    (o.enterModule path place region).entities =
      (o.entities.withNamespaces path "" (pathSegments path)).declare { path, kind := .module, span := place } := by
  cases place <;> rfl

/-- Behind its declaration the module is entered. -/
theorem inModule_enterModule (hspot : spot path ≠ "") (place : Option Span) (region : Span) :
    (o.enterModule path place region).InModule path where
  modulePath := by rw [scope_enterModule]
  spot := hspot
  around q hq := by
    rw [entities_enterModule, paths_declare]
    by_cases hself : q = path
    · exact hself ▸ List.mem_cons_self
    · exact List.mem_cons_of_mem _ (mem_paths_withNamespaces _ _ _ _ q hq hself)

theorem InModule.enterModule (h : o.InModule path) (name : String) (place : Option Span) (region : Span) :
    (o.enterModule (path ++ "." ++ name) place region).InModule (path ++ "." ++ name) ∧
      Fills path o.entities (o.enterModule (path ++ "." ++ name) place region).entities := by
  constructor
  · refine inModule_enterModule ?_ place region
    rw [spot_append h.spot]
    simp
  · rw [entities_enterModule]
    exact (Fills.withNamespaces h.spot h.around).trans (.declare (.inl ⟨name, rfl⟩))

end CheckerState

open CheckerState Entities

/-- What is declared in a module is inside its path. -/
theorem DeclsVisit.fills {L : Landmark → Prop} {path : String} {stop : Nat} {ds : List Decl} {o o' : CheckerState}
    (h : DeclsVisit L stop ds o o') (hin : o.InModule path) : Fills path o.entities o'.entities := by
  induction h generalizing path with
  | nil => exact .refl path _
  | skip _ ih => exact ih hin
  | expr hvisits _ ih =>
    rw [← hvisits.entities]
    exact ih (hin.keep (by rw [hvisits.scope]) (by rw [hvisits.entities]; exact List.Subset.refl _))
  | @binding _ _ _ _ bound o o₁ _ hvisited _ ih =>
    have hkept : Fills path o.entities (o₁.publishAll bound).entities ∧
        (o₁.publishAll bound).scope.modulePath = pathSegments path := by
      refine publishAll_keeps (R := fun s => Fills path o.entities s.entities ∧
        s.scope.modulePath = pathSegments path) ?_ ⟨hvisited.entities ▸ .refl path _, ?_⟩
      · intro s i _ b _ hs
        refine ⟨hs.1.trans ?_, hs.2⟩
        rw [publish, hs.2, joinPath_pathSegments]
        exact .modifyDeclared fun _ => rfl
      · rw [hvisited.scope]
        exact hin.modulePath
    exact hkept.1.trans (ih (hin.keep (hkept.2.trans hin.modulePath.symm) hkept.1.paths))
  | opening _ hnotes _ ih =>
    rw [← hnotes.entities]
    refine ih (hin.keep ?_ ?_)
    · rw [CheckerState.opening, hnotes.scope]
    · exact hnotes.entities ▸ List.Subset.refl _
  | @module _ span name _ _ o o₁ _ _ _ ihmembers ih =>
    -- what the inner module fills is inside its own path, so inside this one
    rw [qualified_of_modulePath hin.modulePath] at ihmembers
    obtain ⟨henter, hfills⟩ := hin.enterModule name.text (some name.span) span
    have hmodule : Fills path o.entities o₁.entities := hfills.trans ((ihmembers henter).widen hin.spot)
    exact hmodule.trans (ih (hin.keep rfl hmodule.paths))
  | @record _ _ name _ _ ms _ o _ _ hpath hfields _ ih =>
    have hdeclared : Fills path o.entities (o.entities.declare (.ofType _ name.span ms)) :=
      .declare (.inl ⟨name.text, hpath.trans (qualified_of_modulePath hin.modulePath name.text)⟩)
    refine hdeclared.trans (ih (hin.keep ?_ hdeclared.paths))
    exact congrArg CheckerScope.modulePath hfields.scope
  | abbreviation _ hnotes _ ih =>
    rw [← hnotes.entities]
    refine ih (hin.keep ?_ ?_)
    · exact congrArg CheckerScope.modulePath hnotes.scope
    · exact hnotes.entities ▸ List.Subset.refl _

namespace Checker

variable {kind : SourceKind}

/-! Declarations keep the place -/

theorem expr_scope (e : Expr) (expected : Option Ty) (s : CheckerState) :
    (expr e expected).Yields s fun _ s' => s'.scope = s.scope :=
  (expr_walks (L := fun _ => True) e (fun _ _ => trivial) expected s).mono fun _ _ h => h.visits.scope

theorem valueOf_scope (e : Expr) (expected : Option Ty) (s : CheckerState) :
    (valueOf e (expr e expected)).Yields s fun _ s' => s'.scope = s.scope :=
  ((expr_walks (L := fun _ => True) e fun _ _ => trivial).value expected s).mono fun _ _ h => h.visits.scope

theorem bindParams_scope (visible : Span) (ps : List Pattern) (expected : Option Ty) (s : CheckerState) :
    (bindParams visible ps expected).Yields s fun _ s' => ∃ bound, s'.scope = s.scope.push bound [] := by
  refine (bindParams_enters (L := fun _ => True) (fun _ _ => trivial) expected s).mono fun _ s' h => ?_
  obtain ⟨is, henters⟩ := h
  exact ⟨is.reverse, henters.scope⟩

theorem checkBinding_scope (head : LetHead) (body : Expr) (stop : Nat) (ofModule : Bool) (s : CheckerState) :
    (checkBinding head body (fun t => valueOf body (expr body t)) stop ofModule).Yields s fun bound s' =>
      s'.scope = s.scope.push bound.reverse [] := by
  have hvalue := (expr_walks (L := fun _ => True) body fun _ _ => trivial).value
  exact (checkBinding_visited (fun _ _ => trivial) hvalue s).mono fun _ _ h => h.scope

theorem decl_visited (kind : SourceKind) (stop : Nat) (d : Decl) (declared : List String) (s : CheckerState) :
    (decl kind stop d declared).Yields s fun _ s' => DeclsVisit (fun _ => True) stop [d] s.outline s'.outline :=
  (decl_leads kind stop d (fun _ _ => trivial) declared s).mono fun _ _ h => h [] _ (.nil _)

theorem decl_modulePath (kind : SourceKind) (stop : Nat) (d : Decl) (declared : List String) (s : CheckerState) :
    (decl kind stop d declared).Yields s fun _ s' => s'.scope.modulePath = s.scope.modulePath := by
  refine (decl_visited kind stop d declared s).mono fun _ s' h => ?_
  obtain ⟨bound, opened, hscope⟩ := h.scope
  have hplace := congrArg CheckerScope.modulePath hscope
  exact hplace

/-! Types that a module declares -/

mutual

theorem typesOf_inside {path : String} {s : CheckerState} (d : Decl) (h : s.scope.modulePath = pathSegments path) :
    ∀ t ∈ typesOf kind d s, IsInside path t.path := by
  match d with
  | .type _ name (.record _) | .type _ name (.abbreviation _) =>
    exact List.forall_mem_singleton.mpr ⟨name.text, qualified_of_modulePath h name.text⟩
  | .module span name members =>
    intro t ht
    have hinside : IsInside path (s.qualified name.text) := ⟨name.text, qualified_of_modulePath h name.text⟩
    rw [typesOf] at ht
    have hentered : ((enterModule (s.qualified name.text) (some name.span) span).run s).2 =
        s.enterModule (s.qualified name.text) (some name.span) span := enterModule_enters _ _ _ s
    refine hinside.trans (typesOfAll_inside span.stop members [] ?_ t ht)
    rw [hentered, scope_enterModule]
  | .binding _ _ | .open _ _ | .expr _ _ | .directive _ _ | .error _ =>
    intro t ht
    cases ht

theorem typesOfAll_inside {path : String} {s : CheckerState} (stop : Nat) (ds : List Decl)
    (declared : List String) (h : s.scope.modulePath = pathSegments path) :
    ∀ t ∈ typesOfAll kind stop ds declared s, IsInside path t.path := by
  match ds with
  | [] =>
    intro t ht
    cases ht
  | d :: ds =>
    intro t ht
    have hnext : ((decl kind stop d declared).run s).2.scope.modulePath = s.scope.modulePath :=
      decl_modulePath kind stop d declared s
    rcases List.mem_append.mp ht with ht | ht
    · exact typesOfAll_inside stop ds _ (hnext.trans h) t ht
    · exact typesOf_inside d h t ht

end

/-- The new abbreviations stand in front of the older ones. -/
theorem decl_abbreviations (kind : SourceKind) (stop : Nat) (d : Decl) (declared : List String) {s : CheckerState}
    (hs : s.Marked) : (decl kind stop d declared).Yields s fun _ s' =>
      s'.abbreviations = TypeDeclaration.table (typesOf kind d s) ++ s.abbreviations := by
  let history := s.abbreviations.map fun a => (⟨a.1, a.2, false⟩ : TypeDeclaration)
  have hhistory : TypeDeclaration.table history = s.abbreviations := by
    simp [history, TypeDeclaration.table, TypeDeclaration.abbreviations, List.filter_map, Function.comp_def]
  have htables : s.Tables history := by
    refine ⟨hhistory.symm, fun d hd hrecord => ?_⟩
    obtain ⟨a, -, rfl⟩ := List.mem_map.mp hd
    cases hrecord
  refine (decl_tables kind stop d declared hs htables).mono fun _ s' h => ?_
  rw [h.abbreviations, TypeDeclaration.table_append, hhistory]

end Checker

/-! What names mean behind a module -/

namespace CheckerState

variable {path : String} {s s' : CheckerState}

/-- A name without qualification means in `s'` what it means in `s`. It may mean the module at `path` or one around
it instead, which are there now. -/
structure Hides (path : String) (s s' : CheckerState) : Prop where
  searchPaths : s'.searchPaths = s.searchPaths
  containers : s'.containers = s.containers
  binder : ∀ name, s'.binder? name = s.binder? name
  member : ∀ name, s'.memberOf? name s'.containers = s.memberOf? name s.containers
  abbreviation : ∀ name, '.' ∉ name.toList → s'.abbreviation? name = s.abbreviation? name
  entity : ∀ name, '.' ∉ name.toList → s'.entity? [name] = s.entity? [name] ∨
    ∃ p, (p = path ∨ p ∈ spaces "" (pathSegments path)) ∧ s'.entity? [name] = some p

/-- No entity is open that is the one at `path` or inside it. -/
def Unopened (path : String) (s : CheckerState) : Prop :=
  ∀ p ∈ s.scope.opens ++ s.entities.autoOpened, IsOutside path p

theorem qualified_eq_append {name q : String} (hq : q ∈ enclosingPaths s.scope.modulePath) :
    IsInside q (s.qualified name) := by
  rw [qualified, if_neg]
  · exact inside_of_enclosing hq name
  · rw [List.isEmpty_iff]
    intro hnil
    rw [hnil] at hq
    cases hq

theorem spot_qualified {name : String} (hname : IsSimpleName name) (s : CheckerState) :
    spot (s.qualified name) ≠ "" := by
  have hsplit : ∃ before, pathSegments (s.qualified name) = before ++ [name] := by
    unfold qualified
    split
    · exact ⟨[], pathSegments_of_undotted hname.2⟩
    · exact ⟨_, pathSegments_append _ hname.2⟩
  obtain ⟨before, hbefore⟩ := hsplit
  rw [spot, hbefore, List.foldl_append]
  apply qualify_ne_empty
  rintro rfl
  exact hname.1 rfl

theorem outside_of_searched {name q : String} (hname : IsSimpleName name) (hopen : s.Unopened (s.qualified name))
    (hq : q ∈ s.searchPaths) : IsOutside (s.qualified name) q := by
  have hspot := spot_qualified hname s
  rw [CheckerState.searchPaths, List.append_assoc] at hq
  rcases List.mem_append.mp hq with hq | hq
  · exact (qualified_eq_append hq).outside hspot
  · rcases List.mem_append.mp hq with hq | hq
    · exact hopen q (List.mem_append_left _ hq)
    · rcases List.mem_cons.mp hq with rfl | hq
      · have happart {p : String} (hp : p ≠ "") : IsApart p "" :=
          ⟨hp.symm, fun hinside => Nat.not_lt_zero _ hinside.length_lt⟩
        refine ⟨happart fun hempty => hspot ?_, happart hspot⟩
        rw [hempty]
        decide
      · exact hopen q (List.mem_append_right _ hq)

/-- The module at `path` is there now, with the namespaces around it. A path outside of it leads to what it led to,
or to a namespace around the module that is new. -/
structure Gains (path : String) (es es' : Entities) : Prop where
  libraries : es'.libraries = es.libraries
  here : es'.contains path = true ∧ es'.contains (spot path) = true
  outside : ∀ p, IsOutside path p → es'.find? p = es.find? p ∨
    p ∈ spaces "" (pathSegments path) ∧ es.find? p = none ∧ es'.find? p = some { path := p, kind := .nameSpace }

theorem Gains.contains {es es' : Entities} {p : String} (h : Gains path es es') (hp : ¬IsInside path p)
    (hspace : ¬IsInside (spot path) p) : es'.contains p = es.contains p ∨
      es'.contains p = true ∧ (p = path ∨ p ∈ spaces "" (pathSegments path)) := by
  by_cases hself : p = path
  · rw [hself]
    exact .inr ⟨h.here.1, .inl rfl⟩
  · by_cases hlast : p = spot path
    · rw [hlast]
      exact .inr ⟨h.here.2, .inr (foldl_mem_spaces "" (pathSegments_ne_nil path))⟩
    · rcases h.outside p ⟨⟨hself, hp⟩, hlast, hspace⟩ with heq | ⟨haround, -, hnew⟩
      · exact .inl (by rw [Entities.contains, Entities.contains, heq])
      · exact .inr ⟨by rw [Entities.contains, hnew]; rfl, .inr haround⟩

theorem Gains.staticMember {es es' : Entities} {p : String} (h : Gains path es es') (hp : IsOutside path p)
    (name : String) : (es'.find? p).bind (·.staticMember? name) = (es.find? p).bind (·.staticMember? name) := by
  rcases h.outside p hp with heq | ⟨-, hnone, hspace⟩
  · rw [heq]
  · rw [hnone, hspace]
    rfl

theorem find?_eq_or {α : Type} {p p' : α → Bool} {R : α → Prop} {as : List α}
    (h : ∀ a ∈ as, p' a = p a ∨ p' a = true ∧ R a) : as.find? p' = as.find? p ∨ ∃ a, R a ∧ as.find? p' = some a := by
  induction as with
  | nil => exact .inl rfl
  | cons a as ih =>
    obtain ⟨ha, has⟩ := List.forall_mem_cons.mp h
    rw [List.find?_cons, List.find?_cons]
    rcases ha with ha | ⟨ha, hR⟩
    · rw [ha]
      cases p a with
      | true => exact .inl rfl
      | false => exact ih has
    · rw [ha]
      exact .inr ⟨a, hR, rfl⟩

theorem findSome?_congr {α β : Type} {f g : α → Option β} {as : List α} (h : ∀ a ∈ as, f a = g a) :
    as.findSome? f = as.findSome? g := by
  induction as with
  | nil => rfl
  | cons a as ih =>
    obtain ⟨ha, has⟩ := List.forall_mem_cons.mp h
    rw [List.findSome?_cons, List.findSome?_cons, ha, ih has]

/-- Behind a module, single names mean what they meant in front of it. -/
theorem hides_of_gains (hscope : s'.scope = s.scope) (hgains : Gains path s.entities s'.entities)
    (hsearched : ∀ q ∈ s.searchPaths, IsOutside path q)
    (hbinders : ∀ i ∈ s.scope.binders, s'.binders[i]?.map (·.simpleName) = s.binders[i]?.map (·.simpleName))
    (habbreviations : ∀ p, ¬IsInside path p → s'.abbreviations.lookup p = s.abbreviations.lookup p) :
    s.Hides path s' := by
  have hsearchPaths : s'.searchPaths = s.searchPaths := by
    rw [searchPaths, searchPaths, hscope, autoOpened, autoOpened, hgains.libraries]
  have hcontainers : s'.containers = s.containers := by
    rw [containers, containers, hscope, autoOpened, autoOpened, hgains.libraries]
  refine ⟨hsearchPaths, hcontainers, fun name => ?_, fun name => ?_, fun name hname => ?_, fun name hname => ?_⟩
  · rw [binder?, binder?, hscope]
    refine List.find?_congr fun i hi => ?_
    have hany (b? : Option Binder) : b?.any (·.simpleName == name) = (b?.map (·.simpleName)).any (· == name) := by
      cases b? <;> rfl
    rw [hany, hany, hbinders i hi]
  · rw [hcontainers, memberOf?, memberOf?]
    refine findSome?_congr fun owner howner => ?_
    rw [hgains.staticMember (hsearched owner (mem_searchPaths_of_containers howner))]
  · rw [CheckerState.abbreviation?, CheckerState.abbreviation?, hscope]
    refine findSome?_congr fun owner howner => habbreviations _ (IsApart.qualify (hsearched owner ?_).module hname)
    rcases List.mem_append.mp howner with henclosing | hroot
    · exact List.mem_append_left _ (List.mem_append_left _ henclosing)
    · rw [List.mem_singleton.mp hroot]
      exact List.mem_append_right _ List.mem_cons_self
  · rw [entity?, entity?, hsearchPaths, joinPath_singleton]
    refine find?_eq_or fun p hp => ?_
    obtain ⟨q, hq, rfl⟩ := List.mem_map.mp hp
    exact hgains.contains ((hsearched q hq).module.qualify hname) ((hsearched q hq).space.qualify hname)

end CheckerState

namespace Checker

/-- What a module adds to the entities. -/
theorem module_gains (kind : SourceKind) (stop : Nat) (span : Span) (name : Ident) (members : List Decl)
    (declared : List String) (s : CheckerState) (hname : IsSimpleName name.text) :
    (decl kind stop (.module span name members) declared).Yields s fun _ s' =>
      Gains (s.qualified name.text) s.entities s'.entities := by
  simp only [decl, withScope, yields_bind, yields_get, yields_modify, yields_pure]
  have hspot := spot_qualified hname s
  generalize s.qualified name.text = path at hspot ⊢
  refine (enterModule_outline path (some name.span) span s).mono fun _ s₁ h₁ => ?_
  refine (decls_visited (L := fun _ => True) kind span.stop members (fun _ _ => trivial) [] s₁).mono fun _ s₂ h₂ => ?_
  rw [h₁] at h₂
  have hfills := h₂.fills (inModule_enterModule hspot (some name.span) span)
  rw [entities_enterModule] at hfills
  refine ⟨?_, ⟨?_, ?_⟩, fun p hp => ?_⟩
  · exact hfills.libraries.trans (libraries_withNamespaces _ _ _ _)
  · exact contains_iff.mpr (hfills.paths List.mem_cons_self)
  · refine contains_iff.mpr (hfills.paths ?_)
    have hentered := inModule_enterModule (o := s.outline) hspot (some name.span) span
    have hspace := hentered.around _ (foldl_mem_spaces "" (pathSegments_ne_nil path))
    rwa [entities_enterModule] at hspace
  · have hspaces := find?_withNamespaces s.entities path "" (pathSegments path) p
    have hdeclared : s₂.entities.find? p = (s.entities.withNamespaces path "" (pathSegments path)).find? p :=
      (hfills.outside p hp).trans (find?_declare_of_ne hp.module.1)
    rwa [← hdeclared] at hspaces

/-- Types that a module abbreviates are inside its path. -/
theorem module_abbreviations (kind : SourceKind) (stop : Nat) (span : Span) (name : Ident) (members : List Decl)
    (declared : List String) {s : CheckerState} (hs : s.Marked) :
    (decl kind stop (.module span name members) declared).Yields s fun _ s' =>
      ∀ p, ¬IsInside (s.qualified name.text) p → s'.abbreviations.lookup p = s.abbreviations.lookup p := by
  refine (decl_abbreviations kind stop _ declared hs).mono fun _ s' h p hp => ?_
  have hentered : ((enterModule (s.qualified name.text) (some name.span) span).run s).2 =
      s.enterModule (s.qualified name.text) (some name.span) span := enterModule_enters _ _ _ s
  have hinside : ∀ t ∈ typesOf kind (.module span name members) s, IsInside (s.qualified name.text) t.path := by
    rw [typesOf, hentered]
    apply typesOfAll_inside
    rw [scope_enterModule]
  have hnone : (TypeDeclaration.table (typesOf kind (.module span name members) s)).lookup p = none := by
    rw [TypeDeclaration.table, TypeDeclaration.lookup_map, Option.map_eq_none_iff, List.find?_eq_none]
    intro t ht heq
    have hpath := hinside t (List.mem_of_mem_filter ht)
    rw [beq_iff_eq.mp heq] at hpath
    exact hp hpath
  rw [h, List.lookup_append, hnone, Option.none_or]

theorem module_hides (kind : SourceKind) (stop : Nat) (span : Span) (name : Ident) (members : List Decl)
    (declared : List String) {s : CheckerState} (hs : s.Marked) (hname : IsSimpleName name.text)
    (hopen : s.Unopened (s.qualified name.text)) :
    (decl kind stop (.module span name members) declared).Yields s fun _ s' =>
      s.Hides (s.qualified name.text) s' := by
  have hscope : (decl kind stop (.module span name members) declared).Yields s fun _ s' => s'.scope = s.scope := rfl
  have hgains := module_gains kind stop span name members declared s hname
  have habbreviations := module_abbreviations kind stop span name members declared hs
  have hretires := decl_retires kind stop (.module span name members) declared s hs
  refine ((hscope.and hgains).and (habbreviations.and hretires)).mono ?_
  rintro _ s' ⟨⟨hscope, hgains⟩, habbreviations, -, hretires⟩
  refine hides_of_gains hscope hgains (fun q hq => outside_of_searched hname hopen hq) (fun i hi => ?_) habbreviations
  obtain ⟨b', hb', hname, -⟩ := hretires.keeps i _ (Array.getElem?_eq_getElem (hs.scope i hi))
  rw [hb', Array.getElem?_eq_getElem (hs.scope i hi), Option.map_some, Option.map_some, hname]

/-- Expressions leave the scope as it is, bindings put the binders on top that they return, and parameters and
declarations put something on top of it, so that the scope is restored by cutting it back. Behind a module the scope
is that in front of the module. If nothing of the module was open before, names without qualification mean what they
meant there, except for the module itself. -/
theorem scope_restored :
    (∀ e expected s, (expr e expected).Yields s fun _ s' => s'.scope = s.scope) ∧
    (∀ e expected s, (valueOf e (expr e expected)).Yields s fun _ s' => s'.scope = s.scope) ∧
    (∀ head body stop ofModule s,
      (checkBinding head body (fun t => valueOf body (expr body t)) stop ofModule).Yields s fun bound s' =>
        s'.scope = s.scope.push bound.reverse []) ∧
    (∀ visible ps expected s,
      (bindParams visible ps expected).Yields s fun _ s' => ∃ bound, s'.scope = s.scope.push bound []) ∧
    (∀ kind stop ds declared s,
      (decls kind stop ds declared).Yields s fun _ s' => ∃ bound opened, s'.scope = s.scope.push bound opened) ∧
    (∀ kind stop span name members declared s,
      (decl kind stop (.module span name members) declared).Yields s fun _ s' =>
        s'.scope = s.scope ∧
          (s.Marked → IsSimpleName name.text → s.Unopened (s.qualified name.text) →
            s.Hides (s.qualified name.text) s')) := by
  refine ⟨expr_scope, valueOf_scope, checkBinding_scope, bindParams_scope, ?_, ?_⟩
  · intro kind stop ds declared s
    exact (decls_visited (L := fun _ => True) kind stop ds (fun _ _ => trivial) declared s).mono fun _ _ h => h.scope
  · intro kind stop span name members declared s
    exact ⟨rfl, fun hs hname hopen => module_hides kind stop span name members declared hs hname hopen⟩

/-- The module `A.M` with a value and an opened entity in it, where `A.N` is open already. -/
theorem nested_module_hidden :
    let s : CheckerState :=
      { entities := ⟨[], [{ path := "A.N", kind := .module }, { path := "A", kind := .module }]⟩
        scope := { opens := ["A.N"], modulePath := ["A"] } }
    let x : Binding :=
      { pattern := .named ⟨44, 45⟩ ⟨"x", ⟨44, 45⟩⟩, params := [], returnType := none, isRec := false
        span := ⟨40, 49⟩, body := .literal ⟨48, 49⟩ (.int 1) }
    let members := [Decl.open ⟨29, 35⟩ ⟨⟨"N", ⟨34, 35⟩⟩, []⟩, .binding ⟨40, 49⟩ x]
    s.Marked ∧ IsSimpleName "M" ∧ s.Unopened (s.qualified "M") ∧
      s.Hides (s.qualified "M") ((decl .module 60 (.module ⟨14, 49⟩ ⟨"M", ⟨21, 22⟩⟩ members) []).run s).2 := by
  intro s x members
  have hmarked : s.Marked := ⟨by simp [s], by simp [s, Grounded], by simp [s]⟩
  have hname : IsSimpleName "M" := by decide
  have hopen : s.Unopened (s.qualified "M") := by
    intro p hp
    obtain rfl : p = "A.N" := List.mem_singleton.mp hp
    have hspot : spot "A.M" = "A.M" := by decide
    have happart : IsApart "A.M" "A.N" := ⟨by decide, fun hinside => Nat.lt_irrefl 3 hinside.length_lt⟩
    refine ⟨happart, ?_⟩
    change IsApart (spot "A.M") "A.N"
    rwa [hspot]
  exact ⟨hmarked, hname, hopen,
    (scope_restored.2.2.2.2.2 .module 60 ⟨14, 49⟩ ⟨"M", ⟨21, 22⟩⟩ members [] s).2 hmarked hname hopen⟩

/-- The label of a record leaves the module that the record is declared in, and so does all of a module that was
open before. -/
theorem module_contents_visible :
    let r := checkText ⟨"test.glx"⟩ ("module N =\n    type R = { X : int }\nmodule M =\n    let a = 1\nopen M\n" ++
      "module M =\n    let b = 2\nlet c = b\nlet r = { X = 1 }").toList {} none
    r.hasErrors = false ∧ (r.occurrences.filter fun o => !o.isDefinition).map (fun o => (o.span.start, o.symbol.name)) =
      [(66, "M"), (101, "M.b"), (113, "N.R.X")] := by
  decide +kernel

end Checker
end ScriptAnalyzer

import ScriptAnalyzer.Proofs.Syntax.NamePlaces
import ScriptAnalyzer.Proofs.Typing.DeclarationVisits

/-!
The members that a file accesses, each at a dot and a name of its own.
-/

namespace ScriptAnalyzer

/-- The dot of a member access, and its name. -/
def MemberSite.places (m : MemberSite) : List Span := m.dot :: m.name.toList

/-- The new accesses behind `ms` are at some of the places `spans`, in the order of the places. -/
def Accesses (spans : List Span) (ms ms' : List MemberSite) : Prop :=
  ∃ sites : List MemberSite, ms' = sites.reverse ++ ms ∧ (sites.flatMap MemberSite.places).Sublist spans

namespace Accesses

variable {spans spans' : List Span} {ms ms₁ ms' : List MemberSite}

theorem refl (ms : List MemberSite) : Accesses [] ms ms := ⟨[], rfl, .slnil⟩

theorem trans (h : Accesses spans ms ms₁) (h' : Accesses spans' ms₁ ms') :
    Accesses (spans ++ spans') ms ms' := by
  obtain ⟨sites, rfl, hsites⟩ := h
  obtain ⟨sites', rfl, hsites'⟩ := h'
  refine ⟨sites ++ sites', ?_, ?_⟩
  · rw [List.reverse_append, List.append_assoc]
  · rw [List.flatMap_append]
    exact hsites.append hsites'

theorem weaken (h : Accesses spans ms ms') (hspans : spans.Sublist spans') : Accesses spans' ms ms' :=
  let ⟨sites, hmembers, hsites⟩ := h
  ⟨sites, hmembers, hsites.trans hspans⟩

theorem cons (site : MemberSite) (ms : List MemberSite) : Accesses site.places ms (site :: ms) :=
  ⟨[site], rfl, by simp⟩

end Accesses

namespace CheckerState

theorem members_publishAll (o : CheckerState) (indices : List Nat) :
    (o.publishAll indices).records.members = o.records.members :=
  publishAll_keeps (R := fun o' => o'.records.members = o.records.members)
    (fun _ _ _ _ _ h => h) rfl

theorem members_enterModule (o : CheckerState) (path : String) (name : Option Span) (region : Span) :
    (o.enterModule path name region).records.members = o.records.members := by
  cases name <;> rfl

end CheckerState

open CheckerState

/-- The place of a dot, or of the name behind one. -/
def Landmark.accessAt : Landmark → Option Span
  | dot span => some span
  | member n => some n.span
  | binding _ | use _ | label _ => none

theorem Landmark.accessAt_sublist (ms : List Landmark) :
    (ms.filterMap accessAt).Sublist (ms.map fun m => m.source.2) := by
  refine filterMap_sublist (fun m span hspan => ?_) ms
  cases m with
  | dot span | member n => exact (Option.some.inj hspan).symm
  | binding n | use n | label n => cases hspan

variable {L : Landmark → Prop} {o o' : CheckerState}

theorem Notes.members (h : Notes L o o') : o'.records.members = o.records.members := by
  induction h with
  | refl => rfl
  | note _ _ _ ih => exact ih

theorem Enters.members {visible : Span} {ofModule : Bool} {names : List Ident} {is : List Nat}
    (h : Enters L visible ofModule names is o o') : o'.records.members = o.records.members := by
  induction h with
  | nil => rfl
  | note _ _ _ ih | skip _ ih | bind _ _ _ _ _ _ ih => exact ih

namespace Expr

/-- The places of the dots in the expression, and of the names behind them. -/
def accessAt (e : Expr) : List Span := e.landmarks.filterMap Landmark.accessAt

theorem accessAt_member (span dot : Span) (target : Expr) (name : Option Ident) :
    (member span target dot name).accessAt = target.accessAt ++ dot :: (name.map (·.span)).toList := by
  rw [accessAt, landmarks, List.filterMap_append]
  cases name <;> rfl

theorem accessAt_lambda (span : Span) (params : List Pattern) (body : Expr) :
    body.accessAt.Sublist (lambda span params body).accessAt := by
  rw [accessAt, accessAt, landmarks, List.filterMap_append]
  exact List.sublist_append_right _ _

theorem accessAt_letIn (span : Span) (head : LetHead) (value body : Expr) :
    (value.accessAt ++ body.accessAt).Sublist (letIn span head value body).accessAt := by
  rw [accessAt, accessAt, accessAt, landmarks, List.filterMap_append, List.filterMap_append]
  exact List.sublist_append_right _ _

end Expr

/-- A binding accesses what its right-hand side does. -/
theorem binding_accesses {head : LetHead} {visible visible' visible'' : Span}
    {ofModule ofModule' ofModule'' : Bool} {early own late : List Nat} {names names' : List Ident}
    {scheme : Scheme} {o₁ o₂ o₃ : CheckerState} {spans : List Span}
    (hearly : Enters L visible ofModule names early o o₁)
    (hown : Enters L visible' ofModule' names' own o₁ o₂)
    (hvalue : Accesses spans o₂.records.members o₃.records.members)
    (hlate : Enters L visible'' ofModule'' head.late late
      (({ o₃ with scope := o₁.scope } : CheckerState).settle early scheme) o') :
    Accesses spans o.records.members o'.records.members := by
  rw [hlate.members, settle_records, ← hearly.members, ← hown.members]
  exact hvalue

theorem Visits.accesses {es : List Expr} (h : Visits L es o o') :
    Accesses (es.flatMap Expr.accessAt) o.records.members o'.records.members := by
  induction h with
  | nil => exact .refl _
  | skip _ ih | use _ _ _ ih => exact ih.weaken (List.sublist_append_right _ _)
  | note _ _ _ ih | find _ _ _ _ _ ih => exact ih
  | @plain e _ _ _ hplain _ ih =>
    have hchildren : e.accessAt = e.children.flatMap Expr.accessAt :=
      Expr.filterMap_landmarks_of_isPlain (fun _ => rfl) hplain
    rw [List.flatMap_cons, hchildren, ← List.flatMap_append]
    exact ih
  | access _ ih =>
    rw [List.flatMap_cons, Expr.accessAt_member]
    exact ((Accesses.cons _ _).trans ih).weaken (.append_right (List.sublist_append_right _ _) _)
  | accessValue _ _ ih₁ ih₂ | accessMember _ _ _ ih₁ ih₂ =>
    rw [List.flatMap_singleton] at ih₁
    rw [List.flatMap_cons, Expr.accessAt_member, List.append_assoc]
    exact ih₁.trans ((Accesses.cons _ _).trans ih₂)
  | lambda henters _ _ ih₁ ih₂ =>
    rw [List.flatMap_singleton] at ih₁
    rw [← henters.members]
    exact (ih₁.trans ih₂).weaken ((Expr.accessAt_lambda _ _ _).append_right _)
  | letIn hearly hown _ hlate _ _ ih₁ ih₂ ih₃ =>
    rw [List.flatMap_singleton] at ih₁ ih₂
    have h := ((binding_accesses hearly hown ih₁ hlate).trans ih₂).trans ih₃
    exact h.weaken ((Expr.accessAt_letIn _ _ _ _).append_right _)

theorem Fields.members {path : String} {fields : List (Ident × TypeExpr)} {ms : List Member}
    (h : Fields L path fields ms o o') : o'.records.members = o.records.members := by
  induction h with
  | nil => rfl
  | cons hnotes _ ih => exact ih.trans hnotes.members

theorem DeclsVisit.accesses {stop : Nat} {ds : List Decl} (h : DeclsVisit L stop ds o o') :
    Accesses ((Decl.landmarksOfAll ds).filterMap Landmark.accessAt) o.records.members
      o'.records.members := by
  have hbehind (d : Decl) (ds : List Decl) : ((Decl.landmarksOfAll ds).filterMap Landmark.accessAt).Sublist
      ((Decl.landmarksOfAll (d :: ds)).filterMap Landmark.accessAt) := by
    rw [Decl.landmarksOfAll, List.filterMap_append]
    exact List.sublist_append_right _ _
  induction h with
  | nil => exact .refl _
  | skip _ ih => exact ih.weaken (hbehind _ _)
  | expr he _ ih =>
    rw [Decl.landmarksOfAll, List.filterMap_append, Decl.landmarks]
    have h := he.accesses.trans ih
    simpa [Expr.accessAt] using h
  | binding hvisited _ ih =>
    obtain ⟨hearly, hown, hvalue, hlate⟩ := hvisited
    rw [members_publishAll] at ih
    rw [Decl.landmarksOfAll, List.filterMap_append, Decl.landmarks, Binding.landmarks,
      List.filterMap_append]
    have h := (binding_accesses hearly hown hvalue.accesses hlate).trans ih
    exact h.weaken (by simp [Expr.accessAt])
  | opening _ hnotes _ ih =>
    rw [← hnotes.members]
    exact ih.weaken (hbehind _ _)
  | module _ _ ih₁ ih₂ =>
    rw [members_enterModule] at ih₁
    rw [Decl.landmarksOfAll, List.filterMap_append, Decl.landmarks, List.filterMap_cons]
    exact ih₁.trans ih₂
  | @record _ _ _ _ _ _ _ o₀ _ _ _ hfields _ ih =>
    rw [show o₀.records.members = _ from hfields.members.symm]
    exact ih.weaken (hbehind _ _)
  | abbreviation _ hnotes _ ih =>
    rw [← hnotes.members]
    exact ih.weaken (hbehind _ _)

/-! Whole files -/

/-- The places of the one access come in front of those of the other. -/
def MemberSite.Before (m m' : MemberSite) : Prop :=
  ∀ s ∈ m.places, ∀ t ∈ m'.places, s.stop ≤ t.start

/-- The members in the order in which they are accessed stand one behind the other. -/
theorem SyntaxFile.members_pairwise (path : Path) (text : Text) (kind : SourceKind)
    (defines : List String) (context : Context) :
    let s := (parse path text kind defines).endState context
    s.records.members.reverse.Pairwise MemberSite.Before ∧
      ∀ m ∈ s.records.members, m.dot.start < m.dot.stop := by
  let f := parse path text kind defines
  have hvisit := f.endState_visited (L := fun _ => True) context fun _ _ => trivial
  have hstart : (f.startOutline context).records.members = [] := by
    unfold startOutline
    cases f.moduleName? with
    | none => rfl
    | some path => exact members_enterModule _ _ _ _
  obtain ⟨sites, hmembers, hsites⟩ := hvisit.accesses
  have hmembers : (f.endState context).records.members = sites.reverse :=
    hmembers.trans (by rw [hstart, List.append_nil])
  have hplaces : (sites.flatMap MemberSite.places).Sublist (f.landmarks.map fun m => m.source.2) := by
    refine hsites.trans ((Landmark.accessAt_sublist _).trans ?_)
    exact List.Sublist.map _ (List.sublist_append_right _ _)
  have hascend := (landmarks_ascend path text kind defines).sublist hplaces
  intro s
  rw [show s.records.members = sites.reverse from hmembers, List.reverse_reverse]
  refine ⟨(List.pairwise_flatMap.mp hascend.pairwise).2, fun m hm => ?_⟩
  have hdot : m.dot ∈ sites.flatMap MemberSite.places :=
    List.mem_flatMap.mpr ⟨m, List.mem_reverse.mp hm, List.mem_cons_self⟩
  exact (hascend.of_mem hdot).2

end ScriptAnalyzer

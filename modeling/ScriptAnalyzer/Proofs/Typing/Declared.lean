import Mathlib.Data.List.Count
import ScriptAnalyzer.Proofs.Syntax.NamePlaces
import ScriptAnalyzer.Proofs.Typing.DeclarationVisits

/-!
What is declared is declared once, at a name of its own, and a binder keeps its scheme from the end of
its binding on.
-/

namespace ScriptAnalyzer

theorem Pattern.name?_sublist (p : Pattern) : p.name?.toList.Sublist p.boundNames := by
  unfold name?
  split
  · exact .refl _
  · exact .refl _
  · exact List.nil_sublist _

/-- A binding brings each of its names in at most once. -/
theorem LetHead.early_late_sublist (head : LetHead) :
    (head.early ++ head.late).Sublist head.pattern.boundNames := by
  have hname : head.name?.toList.Sublist head.pattern.boundNames := head.pattern.name?_sublist
  unfold early late
  cases head.isFunction with
  | false => exact .refl _
  | true => cases head.isRec <;> simpa using hname

theorem LetHead.early_late (head : LetHead) : head.early ++ head.late = head.boundNames := by
  unfold early late boundNames
  cases head.isFunction with
  | false => rfl
  | true => cases head.isRec <;> simp

namespace CheckerState

/-- The places of the declarations, the latest first. -/
def declaredAt (o : CheckerState) : List Span := o.records.declarations.map (·.1)

/-- The binders, whether they were used or not. -/
def cores (o : CheckerState) : List Binder := o.binders.toList.map fun b => { b with used := false }

def places (o : CheckerState) : List Span := o.binders.toList.map (·.span)

/-- Every binder was declared at its place. -/
def Located (o : CheckerState) : Prop :=
  ∀ i span, o.places[i]? = some span → (span, .binder i) ∈ o.records.declarations

/-- From `o` to `o'` nothing is declared but at the places `spans`, at each as often as it is listed, and
the binders of `o` stay as they are. -/
structure Declares (spans : List Span) (o o' : CheckerState) : Prop where
  count : ∀ span, o'.declaredAt.count span ≤ spans.count span + o.declaredAt.count span
  declarations : o.records.declarations <:+ o'.records.declarations
  cores : o.cores <+: o'.cores
  located : o.Located → o'.Located

variable {spans spans' : List Span} {o o₁ o' : CheckerState}

theorem places_modify (o : CheckerState) (i : Nat) (f : Binder → Binder) (hf : ∀ b, (f b).span = b.span) :
    ({ o with binders := o.binders.modify i f } : CheckerState).places = o.places := by
  refine List.ext_getElem? fun j => ?_
  simp only [places, List.getElem?_map, Array.getElem?_toList, Array.getElem?_modify]
  split
  case isTrue =>
    rw [Option.map_map]
    exact Option.map_congr fun b _ => hf b
  case isFalse => rfl

theorem cores_use (o : CheckerState) (i : Nat) (span : Span) : (o.useBinder i span).cores = o.cores := by
  refine List.ext_getElem? fun j => ?_
  simp only [cores, useBinder, List.getElem?_map, Array.getElem?_toList, Array.getElem?_modify]
  split
  case isTrue => rw [Option.map_map]; rfl
  case isFalse => rfl

theorem places_settle (o : CheckerState) (indices : List Nat) (scheme : Scheme) :
    (o.settle indices scheme).places = o.places := by
  unfold CheckerState.settle
  induction indices generalizing o with
  | nil => rfl
  | cons i is ih => exact (ih _).trans (places_modify o i _ fun _ => rfl)

theorem Located.keep (h : o.Located) (hplaces : o'.places = o.places)
    (hdeclarations : o.records.declarations <:+ o'.records.declarations) : o'.Located :=
  fun i span hi => hdeclarations.subset (h i span (hplaces ▸ hi))

/-- What is declared at the place of a binder is the binder. -/
theorem target_at_binder (hnodup : o.declaredAt.Nodup) (hlocated : o.Located) {i : Nat} {b : Binder}
    (hb : o.binders[i]? = some b) {target : Target} (h : (b.span, target) ∈ o.records.declarations) :
    target = .binder i := by
  have hplace : o.places[i]? = some b.span := by
    rw [places, List.getElem?_map, Array.getElem?_toList, hb]
    rfl
  have heq := List.inj_on_of_nodup_map hnodup h (hlocated i _ hplace) rfl
  exact (Prod.mk.inj heq).2

/-- Binders at one place are one binder. -/
theorem index_at (hnodup : o.declaredAt.Nodup) (hlocated : o.Located) {i j : Nat} {b b' : Binder}
    (hb : o.binders[i]? = some b) (hb' : o.binders[j]? = some b') (hspan : b'.span = b.span) : j = i := by
  have hplace : o.places[j]? = some b.span := by
    rw [places, List.getElem?_map, Array.getElem?_toList, hb']
    exact congrArg some hspan
  exact Target.binder.inj (target_at_binder hnodup hlocated hb (hlocated j _ hplace))

theorem binder_at (hnodup : o.declaredAt.Nodup) (hlocated : o.Located) {i j : Nat} {b b' : Binder}
    (hb : o.binders[i]? = some b) (hb' : o.binders[j]? = some b') (hspan : b'.span = b.span) : b' = b := by
  obtain rfl := index_at hnodup hlocated hb hb' hspan
  exact Option.some.inj (hb'.symm.trans hb)

namespace Declares

theorem refl (o : CheckerState) : Declares [] o o :=
  ⟨fun _ => by simp, List.suffix_rfl, List.prefix_rfl, id⟩

theorem trans (h : Declares spans o o₁) (h' : Declares spans' o₁ o') :
    Declares (spans ++ spans') o o' where
  count span := by
    have := h.count span
    have := h'.count span
    rw [List.count_append]
    omega
  declarations := h.declarations.trans h'.declarations
  cores := h.cores.trans h'.cores
  located hlocated := h'.located (h.located hlocated)

theorem weaken (h : Declares spans o o') (hcount : ∀ span, spans.count span ≤ spans'.count span) :
    Declares spans' o o' :=
  { h with count := fun span => Nat.le_trans (h.count span) (Nat.add_le_add_right (hcount span) _) }

/-- Binders stay where they are. -/
theorem places_eq (h : Declares spans o o') {i : Nat} {span : Span} (hi : o.places[i]? = some span) :
    o'.places[i]? = some span := by
  have hcores (o : CheckerState) : o.cores.map (·.span) = o.places := by
    rw [CheckerState.cores, List.map_map]
    rfl
  obtain ⟨rest, hrest⟩ := h.cores
  rw [← hcores, ← hrest, List.map_append, hcores, List.getElem?_append_left, hi]
  exact (List.getElem?_eq_some_iff.mp hi).1

theorem note (o : CheckerState) (span : Span) (symbol : Symbol) : Declares [] o (o.note span symbol) :=
  ⟨fun _ => by simp [declaredAt, CheckerState.note], List.suffix_rfl, List.prefix_rfl, id⟩

theorem access (o : CheckerState) (site : MemberSite) : Declares [] o (o.access site) :=
  ⟨fun _ => by simp [declaredAt, CheckerState.access], List.suffix_rfl, List.prefix_rfl, id⟩

theorem entities (o : CheckerState) (es : Entities) : Declares [] o { o with entities := es } :=
  ⟨fun _ => by simp [declaredAt], List.suffix_rfl, List.prefix_rfl, id⟩

theorem scope (o : CheckerState) (scope : CheckerScope) : Declares [] o { o with scope } :=
  ⟨fun _ => by simp [declaredAt], List.suffix_rfl, List.prefix_rfl, id⟩

theorem opening (o : CheckerState) (region : Span) (path : String) :
    Declares [] o (o.opening region path) :=
  ⟨fun _ => by simp [declaredAt, CheckerState.opening], List.suffix_rfl, List.prefix_rfl, id⟩

theorem use (o : CheckerState) (i : Nat) (span : Span) : Declares [] o (o.useBinder i span) where
  count _ := by simp [declaredAt, useBinder]
  declarations := List.suffix_rfl
  cores := cores_use o i span ▸ List.prefix_rfl
  located h := h.keep (places_modify o i _ fun _ => rfl) List.suffix_rfl

theorem declareAt (o : CheckerState) (span : Span) (target : Target) :
    Declares [span] o (o.declareAt span target) :=
  ⟨fun _ => by simp [declaredAt, CheckerState.declareAt, List.count_cons, Nat.add_comm],
    List.suffix_cons _ _, List.prefix_rfl, fun h => h.keep rfl (List.suffix_cons _ _)⟩

theorem enter (o : CheckerState) (b : Binder) (visible : Span) :
    Declares [b.span] o (o.enter b visible) where
  count _ := by simp [declaredAt, CheckerState.enter, List.count_cons, Nat.add_comm]
  declarations := List.suffix_cons _ _
  cores := ⟨[{ b with used := false }], by simp [CheckerState.cores, CheckerState.enter]⟩
  located h := by
    intro i span hi
    simp only [places, CheckerState.enter, Array.toList_push, List.map_append, List.getElem?_append] at hi
    split at hi
    case isTrue => exact List.mem_cons_of_mem _ (h i span hi)
    case isFalse hsize =>
      rw [List.map_singleton, List.getElem?_singleton] at hi
      simp only [List.length_map, Array.length_toList] at hi hsize
      split at hi
      case isTrue hzero =>
        obtain rfl := Option.some.inj hi
        obtain rfl : i = o.binders.size := by omega
        exact List.mem_cons_self
      case isFalse => cases hi

/-- Binders that came in behind `o` may still get their scheme. -/
theorem settle {indices : List Nat} (h : Declares spans o o') (hindices : ∀ i ∈ indices, o.binders.size ≤ i)
    (scheme : Scheme) : Declares spans o (o'.settle indices scheme) := by
  unfold CheckerState.settle
  induction indices generalizing o' with
  | nil => exact h
  | cons i is ih =>
    obtain ⟨hi, his⟩ := List.forall_mem_cons.mp hindices
    refine ih ⟨h.count, h.declarations, ?_, fun hlocated => ?_⟩ his
    · have hlength : o.cores.length = o.binders.size := by simp [CheckerState.cores]
      rw [List.prefix_iff_getElem?]
      intro j hj
      have hne : i ≠ j := by omega
      have hcore := List.prefix_iff_getElem?.mp h.cores j hj
      simp only [CheckerState.cores, List.getElem?_map, Array.getElem?_toList,
        Array.getElem?_modify, if_neg hne] at hcore ⊢
      exact hcore
    · exact (h.located hlocated).keep (places_modify o' i _ fun _ => rfl) List.suffix_rfl

theorem publishAll (o : CheckerState) (indices : List Nat) : Declares [] o (o.publishAll indices) :=
  publishAll_keeps (fun _ _ _ _ _ h => h.trans (.entities _ _)) (.refl o)

theorem enterModule (o : CheckerState) (path : String) (name : Option Span) (region : Span) :
    Declares name.toList o (o.enterModule path name region) := by
  have hmodule (o : CheckerState) : Declares [] o (o.inModule path name region) :=
    ⟨fun _ => by simp [declaredAt, inModule], List.suffix_rfl, List.prefix_rfl, id⟩
  have hspaces := Declares.entities o (o.entities.withNamespaces path "" (pathSegments path))
  cases name with
  | none => exact hspaces.trans (hmodule _)
  | some span => exact hspaces.trans ((Declares.declareAt _ span _).trans (hmodule _))

end Declares
end CheckerState

open CheckerState

variable {L : Landmark → Prop} {o o' : CheckerState}

theorem Notes.declares (h : Notes L o o') : Declares [] o o' := by
  induction h with
  | refl o => exact .refl o
  | note _ _ _ ih => exact (Declares.note _ _ _).trans ih

theorem Enters.declares {visible : Span} {ofModule : Bool} {names : List Ident} {is : List Nat}
    (h : Enters L visible ofModule names is o o') :
    Declares (names.map (·.span)) o o' ∧ ∀ i ∈ is, o.binders.size ≤ i := by
  induction h with
  | nil o => exact ⟨.refl o, nofun⟩
  | note _ _ _ ih => exact ⟨(Declares.note _ _ _).trans ih.1, ih.2⟩
  | skip _ ih =>
    refine ⟨ih.1.weaken fun span => ?_, ih.2⟩
    rw [List.map_cons, List.count_cons]
    exact Nat.le_add_right _ _
  | @bind n names is o o' b _ _ _ hspan _ _ ih =>
    refine ⟨?_, List.forall_mem_cons.mpr ⟨Nat.le_refl _, fun i hi => ?_⟩⟩
    · rw [List.map_cons, ← hspan]
      exact (Declares.enter o b visible).trans ih.1
    · have hsize : (o.enter b visible).binders.size = o.binders.size + 1 := Array.size_push b
      have := ih.2 i hi
      omega

/-- Each binder that comes in stands at the place of one of the names. -/
theorem Enters.places {visible : Span} {ofModule : Bool} {names : List Ident} {is : List Nat}
    (h : Enters L visible ofModule names is o o') :
    ∀ i ∈ is, ∃ n ∈ names, o'.places[i]? = some n.span := by
  induction h with
  | nil => exact nofun
  | note _ _ _ ih => exact ih
  | skip _ ih =>
    refine fun i hi => ?_
    obtain ⟨n, hn, hplace⟩ := ih i hi
    exact ⟨n, List.mem_cons_of_mem _ hn, hplace⟩
  | @bind n names is o o' b _ _ _ hspan _ hrest ih =>
    refine List.forall_mem_cons.mpr ⟨⟨n, List.mem_cons_self, hrest.declares.1.places_eq ?_⟩, fun i hi => ?_⟩
    · simp [CheckerState.places, CheckerState.enter, hspan]
    · obtain ⟨n', hn', hplace⟩ := ih i hi
      exact ⟨n', List.mem_cons_of_mem _ hn', hplace⟩

/-! Expressions -/

namespace Expr

/-- The places of the names that the expression binds. -/
def boundAt (e : Expr) : List Span := e.landmarks.filterMap Landmark.boundAt

theorem boundAt_of_isPlain {e : Expr} (hplain : e.isPlain = true) :
    e.boundAt = e.children.flatMap boundAt :=
  filterMap_landmarks_of_isPlain (fun _ => rfl) hplain

theorem boundAt_member (span dot : Span) (target : Expr) (name : Option Ident) :
    (member span target dot name).boundAt = target.boundAt := by
  rw [boundAt, landmarks, List.filterMap_append]
  cases name <;> exact List.append_nil _

theorem boundAt_lambda (span : Span) (params : List Pattern) (body : Expr) :
    (lambda span params body).boundAt =
      (Pattern.boundNamesOfAll params).map (·.span) ++ body.boundAt := by
  rw [boundAt, landmarks, List.filterMap_append, Pattern.boundAt_landmarksOfAll, boundAt]

theorem boundAt_letIn (span : Span) (head : LetHead) (value body : Expr) :
    (letIn span head value body).boundAt =
      head.landmarks.filterMap Landmark.boundAt ++ (value.boundAt ++ body.boundAt) := by
  rw [boundAt, landmarks, List.filterMap_append, List.filterMap_append, boundAt, boundAt]

end Expr

/-- What a binding declares, up to its end. -/
theorem binding_declares {head : LetHead} {value : Expr} {stop : Nat} {ofModule : Bool}
    {early own late : List Nat} {scheme : Scheme} {o₁ o₂ o₃ : CheckerState} {spans : List Span}
    (hearly : Enters L ⟨head.span.start, stop⟩ ofModule head.early early o o₁)
    (hown : Enters L value.span false (Pattern.boundNamesOfAll head.params) own o₁ o₂)
    (hvalue : Declares spans o₂ o₃)
    (hlate : Enters L ⟨head.span.stop, stop⟩ ofModule head.late late
      (({ o₃ with scope := o₁.scope } : CheckerState).settle early scheme) o') :
    Declares (head.landmarks.filterMap Landmark.boundAt ++ spans) o o' := by
  obtain ⟨hdeclares, hnew⟩ := hearly.declares
  have hright := (hdeclares.trans (hown.declares.1.trans (hvalue.trans (.scope o₃ o₁.scope)))).settle hnew scheme
  refine (hright.trans hlate.declares.1).weaken fun span => ?_
  have hnames := (head.early_late_sublist.map (·.span)).count_le span
  rw [List.map_append, List.count_append] at hnames
  simp only [head.boundAt_landmarks, List.count_append, List.count_nil]
  omega

theorem Visits.declares {es : List Expr} (h : Visits L es o o') : Declares (es.flatMap Expr.boundAt) o o' := by
  induction h with
  | nil o => exact .refl o
  | skip _ ih =>
    refine ih.weaken fun span => ?_
    rw [List.flatMap_cons, List.count_append]
    exact Nat.le_add_left _ _
  | note _ _ _ ih => exact (Declares.note _ _ _).trans ih
  | find _ _ _ _ _ ih => exact (Declares.note _ _ _).trans ih
  | plain hplain _ ih =>
    rw [List.flatMap_cons, Expr.boundAt_of_isPlain hplain, ← List.flatMap_append]
    exact ih
  | use _ _ _ ih => exact (Declares.use _ _ _).trans ih
  | access _ ih =>
    refine ((Declares.access _ _).trans ih).weaken fun span => ?_
    rw [List.flatMap_cons, List.nil_append, List.count_append]
    exact Nat.le_add_left _ _
  | accessValue _ _ ih₁ ih₂ =>
    rw [List.flatMap_cons, Expr.boundAt_member]
    have h := ih₁.trans ((Declares.access _ _).trans ih₂)
    simpa using h
  | accessMember _ _ _ ih₁ ih₂ =>
    rw [List.flatMap_cons, Expr.boundAt_member]
    have h := ih₁.trans ((Declares.access _ _).trans ((Declares.note _ _ _).trans ih₂))
    simpa using h
  | lambda henters _ _ ih₁ ih₂ =>
    rw [List.flatMap_cons, Expr.boundAt_lambda]
    have h := henters.declares.1.trans (ih₁.trans ((Declares.scope _ _).trans ih₂))
    simpa using h
  | letIn hearly hown _ hlate _ _ ih₁ ih₂ ih₃ =>
    rw [List.flatMap_cons, Expr.boundAt_letIn]
    have h := (binding_declares hearly hown ih₁ hlate).trans (ih₂.trans ((Declares.scope _ _).trans ih₃))
    simpa using h

/-- The binders that a binding leaves in scope stand at the places of its names. -/
theorem LetHead.Visited.places {head : LetHead} {value : Expr} {stop : Nat} {ofModule : Bool}
    {bound : List Nat} (h : head.Visited L value stop ofModule bound o o') :
    ∀ i ∈ bound, ∃ n ∈ head.boundNames, o'.places[i]? = some n.span := by
  obtain ⟨hearly, hown, hvalue, hlate⟩ := h
  rw [← head.early_late]
  refine List.forall_mem_append.mpr ⟨fun i hi => ?_, fun i hi => ?_⟩
  · obtain ⟨n, hn, hplace⟩ := hearly.places i hi
    have hright := hvalue.declares.places_eq (hown.declares.1.places_eq hplace)
    refine ⟨n, List.mem_append_left _ hn, hlate.declares.1.places_eq ?_⟩
    rw [CheckerState.places_settle]
    exact hright
  · obtain ⟨n, hn, hplace⟩ := hlate.places i hi
    exact ⟨n, List.mem_append_right _ hn, hplace⟩

/-! Declarations -/

theorem Fields.declares {path : String} {fields : List (Ident × TypeExpr)} {ms : List Member}
    (h : Fields L path fields ms o o') : Declares (fields.map (·.1.span)) o o' := by
  induction h with
  | nil o => exact .refl o
  | cons hnotes _ ih =>
    have h := hnotes.declares.trans ((Declares.declareAt _ _ _).trans ih)
    simpa using h

theorem TypeBody.boundAt_fields (fields : List (Ident × TypeExpr)) :
    (TypeBody.record fields).landmarks.filterMap Landmark.boundAt = fields.map (·.1.span) := by
  rw [landmarks, List.filterMap_flatMap]
  induction fields with
  | nil => rfl
  | cons f fields ih =>
    rw [List.flatMap_cons, ih, List.filterMap_cons, f.2.filterMap_landmarks fun _ => rfl]
    rfl

theorem DeclsVisit.declares {stop : Nat} {ds : List Decl} (h : DeclsVisit L stop ds o o') :
    Declares ((Decl.landmarksOfAll ds).filterMap Landmark.boundAt) o o' := by
  induction h with
  | nil o => exact .refl o
  | skip _ ih =>
    refine ih.weaken fun span => ?_
    rw [Decl.landmarksOfAll, List.filterMap_append, List.count_append]
    exact Nat.le_add_left _ _
  | @expr _ _ e _ _ _ _ he _ ih =>
    rw [Decl.landmarksOfAll, List.filterMap_append, Decl.landmarks]
    have h := he.declares.trans ih
    simpa [Expr.boundAt] using h
  | @binding _ _ b _ _ _ _ _ hvisited _ ih =>
    obtain ⟨hearly, hown, hvalue, hlate⟩ := hvisited
    rw [Decl.landmarksOfAll, List.filterMap_append, Decl.landmarks, Binding.landmarks]
    have h := (binding_declares hearly hown hvalue.declares hlate).trans
      ((Declares.publishAll _ _).trans ih)
    simpa [Expr.boundAt] using h
  | opening _ hnotes _ ih =>
    refine (hnotes.declares.trans ((Declares.opening _ _ _).trans ih)).weaken fun span => ?_
    rw [Decl.landmarksOfAll, List.filterMap_append]
    simp
  | module _ _ ih₁ ih₂ =>
    rw [Decl.landmarksOfAll, List.filterMap_append, Decl.landmarks, List.filterMap_cons]
    have h := (Declares.enterModule _ _ _ _).trans (ih₁.trans ((Declares.scope _ _).trans ih₂))
    simpa [Landmark.boundAt] using h
  | @record _ _ name fields path ms _ o o₁ _ _ hfields _ ih =>
    refine ((Declares.entities o _).trans (hfields.declares.trans ((Declares.entities o₁ _).trans
      ((Declares.declareAt _ _ _).trans ih)))).weaken fun span => ?_
    rw [Decl.landmarksOfAll, List.filterMap_append, Decl.landmarks, List.filterMap_cons,
      TypeBody.boundAt_fields]
    simp only [Landmark.boundAt, List.nil_append, List.count_append, List.count_cons, List.count_nil]
    omega
  | abbreviation _ hnotes _ ih =>
    refine (hnotes.declares.trans ((Declares.declareAt _ _ _).trans ih)).weaken fun span => ?_
    rw [Decl.landmarksOfAll, List.filterMap_append, Decl.landmarks, List.filterMap_cons]
    simp only [Landmark.boundAt, List.nil_append, List.count_append, List.count_cons, List.count_nil]
    omega

namespace SyntaxFile

variable (path : Path) (text : Text) (kind : SourceKind) (defines : List String)

/-- The places of the header and of the names that are bound are different. -/
theorem bound_nodup : (((parse path text kind defines).header.map LongIdent.span).toList ++
    (Decl.landmarksOfAll (parse path text kind defines).decls).filterMap Landmark.boundAt).Nodup := by
  have hascend := landmarks_ascend path text kind defines
  rw [landmarks, List.map_append] at hascend
  have hdecls := hascend.nodup.of_append_right.sublist (Landmark.boundAt_sublist _)
  refine List.nodup_append.mpr ⟨?_, hdecls, fun span hspan place hplace => ?_⟩
  · cases (parse path text kind defines).header <;> simp
  · cases hheader : (parse path text kind defines).header with
    | none => rw [hheader] at hspan; cases hspan
    | some name =>
      rw [hheader] at hspan hascend
      obtain rfl : span = name.span := List.mem_singleton.mp hspan
      have hlast : name.last.span ∈ (name.parts.map Landmark.label).map fun m => m.source.2 := by
        rw [List.map_map]
        exact List.mem_map_of_mem name.last_mem
      have hbehind := (List.pairwise_append.mp hascend.pairwise).2.2 _ hlast _
        ((Landmark.boundAt_sublist _).subset hplace)
      have hlt := (hascend.of_mem (List.mem_append_left _ hlast)).2
      rintro rfl
      have hstart : name.span.start ≤ name.last.span.start := Nat.min_le_right _ _
      omega

/-- What is declared is the module of the header, or what a name of the tree brings in. -/
theorem endState_declares (context : Context) : let f := parse path text kind defines
    Declares ((f.header.map LongIdent.span).toList ++ (Decl.landmarksOfAll f.decls).filterMap Landmark.boundAt)
      (.initial context.libraryNames) (f.endState context) := by
  let f := parse path text kind defines
  have hstart : Declares (f.header.map LongIdent.span).toList (.initial context.libraryNames)
      (f.startOutline context) := by
    unfold startOutline
    cases f.moduleName? with
    | none => exact (Declares.refl _).weaken fun span => Nat.zero_le _
    | some path => exact .enterModule _ _ _ _
  have hvisit := f.endState_visited (L := fun _ => True) context fun _ _ => trivial
  exact { hstart.trans hvisit.declares with }

/-- At no place two things are declared. -/
theorem declaredAt_nodup (context : Context) :
    let s := (parse path text kind defines).endState context
    s.declaredAt.Nodup ∧ s.Located := by
  have hdeclares := endState_declares path text kind defines context
  have hinitial : Located (.initial context.libraryNames) := fun _ _ h => by cases h
  refine ⟨List.nodup_iff_count_le_one.mpr fun span => ?_, hdeclares.located hinitial⟩
  have hone := List.nodup_iff_count_le_one.mp (bound_nodup path text kind defines) span
  exact Nat.le_trans (hdeclares.count span) hone

end SyntaxFile
end ScriptAnalyzer

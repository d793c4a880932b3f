import ScriptAnalyzer.Proofs.Syntax.NamePlaces
import ScriptAnalyzer.Proofs.Typing.Scoping

/-!
The names of members and of binders: those of the libraries, and those that the file brings in. None of
them is empty, and none has a dot.
-/

namespace ScriptAnalyzer

/-- A name of one segment. -/
def IsSimpleName (name : String) : Prop := name.toList ≠ [] ∧ '.' ∉ name.toList
deriving Decidable

theorem Member.symbol_name (m : Member) (owner : String) : (m.symbol owner).name = qualify owner m.name := by
  unfold symbol
  dsimp only
  split
  · split <;> rfl
  · rfl
  · rfl
  · rfl

namespace CheckerState

/-- The names of the binders and of the members are such as `K` says. -/
structure Named (K : String → Prop) (o : CheckerState) : Prop where
  binders : ∀ n ∈ o.names, K n.2
  members : ∀ e ∈ o.entities.all, ∀ m ∈ e.members, K m.name

namespace Named

variable {K : String → Prop} {o o' : CheckerState}

theorem keep (h : o.Named K) (hsame : SameScope o o') (hentities : o'.entities = o.entities) :
    o'.Named K :=
  ⟨hsame.names ▸ h.binders, hentities ▸ h.members⟩

theorem enter {b : Binder} (h : o.Named K) (hb : K b.simpleName) (visible : Span) :
    (o.enter b visible).Named K where
  binders n hn := by
    have hnames : (o.enter b visible).names = o.names ++ [(b.name, b.simpleName)] := by
      simp [names, CheckerState.enter]
    rw [hnames] at hn
    rcases List.mem_append.mp hn with hn | hn
    · exact h.binders n hn
    · exact List.mem_singleton.mp hn ▸ hb
  members := h.members

theorem declare {e : Entity} (h : o.Named K) (hmembers : ∀ m ∈ e.members, K m.name) :
    (o.declare e).Named K where
  binders := h.binders
  members e' he' := by
    rcases List.mem_cons.mp he' with rfl | he'
    · exact hmembers
    · exact h.members e' he'

theorem publish {b : Binder} {i : Nat} (h : o.Named K) (hb : o.binders[i]? = some b) :
    (o.publish b).Named K where
  binders := h.binders
  members e he m hm := by
    have hname : K b.simpleName := by
      have hmem : b ∈ o.binders.toList := Array.mem_toList_iff.mpr (Array.mem_of_getElem? hb)
      exact h.binders (b.name, b.simpleName) (List.mem_map.mpr ⟨b, hmem, rfl⟩)
    rcases List.mem_append.mp he with he | he
    · rcases Entities.mem_modifyFirst he with hold | ⟨e, hold, rfl⟩
      · exact h.members e (List.mem_append_left _ hold) m hm
      · rcases List.mem_append.mp hm with hm | hm
        · exact h.members e (List.mem_append_left _ hold) m (List.mem_filter.mp hm).1
        · obtain rfl := List.mem_singleton.mp hm
          exact hname
    · exact h.members e (List.mem_append_right _ he) m hm

theorem publishAll (h : o.Named K) (indices : List Nat) : (o.publishAll indices).Named K :=
  publishAll_keeps (fun _ _ _ _ hb hs => hs.publish hb) h

theorem withNamespaces (h : o.Named K) (path before : String) (segments : List String) :
    Named K { o with entities := o.entities.withNamespaces path before segments } :=
  Entities.withNamespaces_keeps (R := fun es => Named K { o with entities := es })
    (fun _ _ hes => hes.declare (by simp)) h path before segments

theorem enterModule (h : o.Named K) (path : String) (name : Option Span) (region : Span) :
    (o.enterModule path name region).Named K := by
  have hspaces := h.withNamespaces path "" (pathSegments path)
  have hmodule := hspaces.declare (e := { path, kind := .module, span := name }) nofun
  cases name <;> exact ⟨hmodule.binders, hmodule.members⟩

end Named
end CheckerState

open CheckerState

variable {L : Landmark → Prop} {K : String → Prop} {o o' : CheckerState}

theorem Enters.named (hL : ∀ n, L (.binding n) → K n.text) {visible : Span} {ofModule : Bool}
    {names : List Ident} {is : List Nat} (h : Enters L visible ofModule names is o o')
    (hnamed : o.Named K) : o'.Named K := by
  induction h with
  | nil => exact hnamed
  | note _ _ _ ih => exact ih ⟨hnamed.binders, hnamed.members⟩
  | skip _ ih => exact ih hnamed
  | bind hbinding _ hsimple _ _ _ ih => exact ih (hnamed.enter (hsimple ▸ hL _ hbinding) _)

/-- A binding brings in the names of its head. -/
theorem binding_named (hL : ∀ n, L (.binding n) → K n.text) {visible visible' visible'' : Span}
    {ofModule ofModule' ofModule'' : Bool} {early own late : List Nat} {names names' names'' : List Ident}
    {scheme : Scheme} {o₁ o₂ o₃ : CheckerState} (hearly : Enters L visible ofModule names early o o₁)
    (hown : Enters L visible' ofModule' names' own o₁ o₂) (hvalue : o₂.Named K → o₃.Named K)
    (hlate : Enters L visible'' ofModule'' names'' late
      (({ o₃ with scope := o₁.scope } : CheckerState).settle early scheme) o') (hnamed : o.Named K) :
    o'.Named K := by
  have h₃ := hvalue (hown.named hL (hearly.named hL hnamed))
  have hscope : Named K { o₃ with scope := o₁.scope } := ⟨h₃.binders, h₃.members⟩
  exact hlate.named hL (hscope.keep (.settle _ _ _) (entities_settle _ _ _))

theorem Visits.named (hL : ∀ n, L (.binding n) → K n.text) {es : List Expr} (h : Visits L es o o')
    (hnamed : o.Named K) : o'.Named K := by
  induction h with
  | nil => exact hnamed
  | skip _ ih | plain _ _ ih => exact ih hnamed
  | note _ _ _ ih | find _ _ _ _ _ ih | access _ ih => exact ih ⟨hnamed.binders, hnamed.members⟩
  | @use n _ i o _ _ _ _ ih =>
    have hmodified : Named K { o with binders := o.binders.modify i fun b => { b with used := true } } :=
      hnamed.keep (.modify _ _ _ fun _ => ⟨rfl, rfl⟩) rfl
    exact ih ⟨hmodified.binders, hmodified.members⟩
  | accessValue _ _ ih₁ ih₂ | accessMember _ _ _ ih₁ ih₂ =>
    exact ih₂ ⟨(ih₁ hnamed).binders, (ih₁ hnamed).members⟩
  | lambda henters _ _ ih₁ ih₂ =>
    have h₂ := ih₁ (henters.named hL hnamed)
    exact ih₂ ⟨h₂.binders, h₂.members⟩
  | letIn hearly hown _ hlate _ _ ih₁ ih₂ ih₃ =>
    have h₅ := ih₂ (binding_named hL hearly hown ih₁ hlate hnamed)
    exact ih₃ ⟨h₅.binders, h₅.members⟩

theorem Fields.memberNames {path : String} {fields : List (Ident × TypeExpr)} {ms : List Member}
    (h : Fields L path fields ms o o') : ms.map (·.name) = fields.map fun f => f.1.text := by
  induction h with
  | nil => rfl
  | @cons name _ _ _ _ _ _ _ _ _ ih => exact congrArg (name.text :: ·) ih

theorem DeclsVisit.named (hL : ∀ n, L (.binding n) → K n.text) {stop : Nat} {ds : List Decl}
    (h : DeclsVisit L stop ds o o') (hds : ∀ n, .binding n ∈ Decl.landmarksOfAll ds → K n.text)
    (hnamed : o.Named K) : o'.Named K := by
  have htail {d : Decl} {ds : List Decl} (hds : ∀ n, .binding n ∈ Decl.landmarksOfAll (d :: ds) → K n.text) :
      ∀ n, .binding n ∈ Decl.landmarksOfAll ds → K n.text :=
    fun n hn => hds n (List.mem_append_right _ hn)
  induction h with
  | nil => exact hnamed
  | skip _ ih => exact ih (htail hds) hnamed
  | expr he _ ih => exact ih (htail hds) (he.named hL hnamed)
  | binding hvisited _ ih =>
    obtain ⟨hearly, hown, hvalue, hlate⟩ := hvisited
    exact ih (htail hds) ((binding_named hL hearly hown (hvalue.named hL) hlate hnamed).publishAll _)
  | opening _ hnotes _ ih =>
    have h₁ := hnamed.keep hnotes.sameScope hnotes.entities
    exact ih (htail hds) ⟨h₁.binders, h₁.members⟩
  | module _ _ ih₁ ih₂ =>
    have h₁ := ih₁ (fun n hn => hds n (List.mem_append_left _ (List.mem_cons_of_mem _ hn)))
      (hnamed.enterModule _ _ _)
    exact ih₂ (htail hds) ⟨h₁.binders, h₁.members⟩
  | @record _ _ name fields path ms _ o o₁ _ _ hfields _ ih =>
    have hms : ∀ m ∈ ms, K m.name := by
      intro m hm
      have hname := List.mem_map_of_mem (f := (·.name)) hm
      rw [hfields.memberNames] at hname
      obtain ⟨f, hf, heq⟩ := List.mem_map.mp hname
      have hfield : .binding f.1 ∈ TypeBody.landmarks (.record fields) :=
        List.mem_flatMap.mpr ⟨f, hf, List.mem_cons_self⟩
      exact heq ▸ hds f.1 (List.mem_append_left _ (List.mem_cons_of_mem _ hfield))
    have hdeclared : (o.declare (.ofType path name.span ms)).Named K := hnamed.declare hms
    have hnames : o₁.names = o.names := hfields.sameScope.names
    exact ih (htail hds) ⟨hnames ▸ hdeclared.binders, hdeclared.members⟩
  | abbreviation _ hnotes _ ih =>
    have h₁ := hnamed.keep hnotes.sameScope hnotes.entities
    exact ih (htail hds) ⟨h₁.binders, h₁.members⟩

/-! Whole files -/

namespace Catalog

theorem libraries_simpleNames :
    libraries.all (fun l => l.2.all fun e => e.members.all fun m => decide (IsSimpleName m.name)) = true := by
  decide +kernel

theorem object_simpleNames : ∀ m ∈ object.members, IsSimpleName m.name := by decide +kernel

theorem simpleName_of_entitiesOf {names : List String} {e : Entity} (h : e ∈ entitiesOf names) :
    ∀ m ∈ e.members, IsSimpleName m.name := by
  obtain ⟨l, hl, he⟩ := List.mem_flatMap.mp h
  have hlibrary := List.all_eq_true.mp libraries_simpleNames l (List.mem_filter.mp hl).1
  have hmembers := List.all_eq_true.mp hlibrary e he
  exact fun m hm => of_decide_eq_true (List.all_eq_true.mp hmembers m hm)

end Catalog

theorem SyntaxFile.endState_named (path : Path) (text : Text) (kind : SourceKind)
    (defines : List String) (context : Context) :
    ((parse path text kind defines).endState context).outline.Named IsSimpleName := by
  let f := parse path text kind defines
  have hL : ∀ n, Landmark.binding n ∈ f.landmarks → IsSimpleName n.text := fun n hn =>
    have hspelled := landmark_spelled path text kind defines hn (n := n) rfl
    ⟨hspelled.nonempty, hspelled.undotted⟩
  have hdecls : ∀ m ∈ Decl.landmarksOfAll f.decls, m ∈ f.landmarks :=
    fun m hm => List.mem_append_right _ hm
  have hvisit := f.endState_visited (L := (· ∈ f.landmarks)) context hdecls
  have hinitial : (CheckerState.initial context.libraryNames).Named IsSimpleName :=
    ⟨nofun, fun e he => Catalog.simpleName_of_entitiesOf he⟩
  refine hvisit.named hL (fun n hn => hL n (hdecls _ hn)) ?_
  unfold startOutline
  cases f.moduleName? with
  | none => exact hinitial
  | some path => exact hinitial.enterModule _ _ _

end ScriptAnalyzer

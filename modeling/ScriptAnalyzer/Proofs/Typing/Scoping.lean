import Mathlib.Data.List.Find
import ScriptAnalyzer.Proofs.Syntax.NamePlaces
import ScriptAnalyzer.Proofs.Typing.DottedPaths
import ScriptAnalyzer.Proofs.Typing.DeclarationVisits

/-!
A name that means a binder means the latest binder of the name whose part of the text contains it.

The checker keeps the binders in scope on a stack; the places at which each can be named are recorded
once and for all. At a place the checker has reached, the recorded entries around it are those on the
stack; what is recorded later lies behind the place.
-/

namespace ScriptAnalyzer

/-- Of the entries `all`, the latest first, `live` are in scope, and the others end in front of `next`. -/
inductive Standing (next : Nat) : (all live : List (Span × Nat)) → Prop
  | nil : Standing next [] []
  | live {v : Span × Nat} {all live : List (Span × Nat)} :
    Standing next all live → Standing next (v :: all) (v :: live)
  | closed {v : Span × Nat} {all live : List (Span × Nat)} :
    v.1.stop < next → Standing next all live → Standing next (v :: all) live

namespace Standing

variable {next next' : Nat} {all live new : List (Span × Nat)}

theorem later (h : Standing next all live) (hnext : next ≤ next') : Standing next' all live := by
  induction h with
  | nil => exact .nil
  | live _ ih => exact .live ih
  | closed hstop _ ih => exact .closed (Nat.lt_of_lt_of_le hstop hnext) ih

/-- Entries that end go out of scope. -/
theorem close (h : Standing next all (new ++ live)) (hnew : ∀ v ∈ new, v.1.stop < next) :
    Standing next all live := by
  generalize hlive : new ++ live = live' at h
  induction h generalizing new with
  | nil =>
    obtain ⟨-, rfl⟩ := List.append_eq_nil_iff.mp hlive
    exact .nil
  | live h ih =>
    cases new with
    | nil =>
      obtain rfl : live = _ := hlive
      exact .live h
    | cons v new =>
      obtain ⟨rfl, hrest⟩ := List.cons.inj hlive
      obtain ⟨hv, hnew⟩ := List.forall_mem_cons.mp hnew
      exact .closed hv (ih hnew hrest)
  | closed hstop _ ih => exact .closed hstop (ih hnew hlive)

/-- At a place of all entries in scope these are the ones that touch it. -/
theorem filter_eq (h : Standing next all live) {offset : Nat} (hnext : next ≤ offset)
    (hlive : ∀ v ∈ live, v.1.touches offset = true) : all.filter (·.1.touches offset) = live := by
  induction h with
  | nil => rfl
  | live _ ih =>
    obtain ⟨hv, hrest⟩ := List.forall_mem_cons.mp hlive
    rw [List.filter_cons, if_pos hv, ih hrest]
  | closed hstop _ ih =>
    rw [List.filter_cons, if_neg, ih hlive]
    simp only [Span.touches, Bool.and_eq_true, decide_eq_true_eq]
    omega

end Standing

namespace CheckerState

/-- The qualified and the simple names of the binders. -/
def names (o : CheckerState) : List (String × String) :=
  o.binders.toList.map fun b => (b.name, b.simpleName)

def isNamed (o : CheckerState) (name : String) (i : Nat) : Bool := o.names[i]?.any (·.2 == name)

/-- Everywhere in `span` the latest recorded binder of the name that is written there is `i`. -/
def Answers (o : CheckerState) (w : Span → String) (span : Span) (i : Nat) : Prop :=
  ∀ offset, span.start ≤ offset → offset < span.stop → ∃ visible,
    (o.records.visible.filter (·.1.touches offset)).find? (fun v => o.isNamed (w span) v.2) =
      some (visible, i)

/-- The state `o` is reached at `a`, with the binders of `live` in scope; the function `w` tells what
name is written at a place. -/
structure Scoped (w : Span → String) (a : Cut) (live : List (Span × Nat)) (o : CheckerState) : Prop where
  scope : o.scope.binders = live.map (·.2)
  standing : Standing a.next o.records.visible live
  bound : ∀ v ∈ o.records.visible, v.2 < o.names.length
  simple : ∀ n ∈ o.names, String.ofList (lastSegment n.1.toList) = n.2
  uses : ∀ m ∈ o.records.mentions, m.isDefinition = false → ∀ i, m.target = .binder i →
    m.span.stop ≤ a.stop ∧ o.Answers w m.span i

/-- What a state must not change to stay scoped. -/
structure SameScope (o o' : CheckerState) : Prop where
  scope : o'.scope.binders = o.scope.binders
  visible : o'.records.visible = o.records.visible
  names : o'.names = o.names
  mentions : ∀ m ∈ o'.records.mentions, m ∈ o.records.mentions ∨ m.isDefinition = true ∨
    ∃ symbol, m.target = .fixed symbol

variable {w : Span → String} {a a' : Cut} {live new : List (Span × Nat)} {o o' : CheckerState}

theorem binder?_eq (o : CheckerState) (name : String) :
    o.binder? name = o.scope.binders.find? (o.isNamed name) := by
  refine List.find?_congr fun i _ => ?_
  rw [isNamed, names, List.getElem?_map, Array.getElem?_toList, Option.any_map]

theorem names_modify (o : CheckerState) (i : Nat) (f : Binder → Binder)
    (hf : ∀ b, (f b).name = b.name ∧ (f b).simpleName = b.simpleName) :
    ({ o with binders := o.binders.modify i f } : CheckerState).names = o.names := by
  refine List.ext_getElem? fun j => ?_
  simp only [names, List.getElem?_map, Array.getElem?_toList, Array.getElem?_modify]
  split
  case isTrue heq =>
    rw [Option.map_map]
    exact Option.map_congr fun b _ => Prod.ext (hf b).1 (hf b).2
  case isFalse => rfl

namespace SameScope

theorem trans {o₁ : CheckerState} (h : SameScope o o₁) (h' : SameScope o₁ o') : SameScope o o' where
  scope := h'.scope.trans h.scope
  visible := h'.visible.trans h.visible
  names := h'.names.trans h.names
  mentions m hm := (h'.mentions m hm).elim (h.mentions m) .inr

theorem refl (o : CheckerState) : SameScope o o := ⟨rfl, rfl, rfl, fun _ h => .inl h⟩

theorem note (o : CheckerState) (span : Span) (symbol : Symbol) : SameScope o (o.note span symbol) :=
  ⟨rfl, rfl, rfl, fun _ hm =>
    (List.mem_cons.mp hm).elim (fun h => .inr (.inr ⟨symbol, h ▸ rfl⟩)) .inl⟩

theorem access (o : CheckerState) (site : MemberSite) : SameScope o (o.access site) :=
  ⟨rfl, rfl, rfl, fun _ h => .inl h⟩

theorem declareAt (o : CheckerState) (span : Span) (target : Target) :
    SameScope o (o.declareAt span target) :=
  ⟨rfl, rfl, rfl, fun _ hm =>
    (List.mem_cons.mp hm).elim (fun h => .inr (.inl (h ▸ rfl))) .inl⟩

theorem entities (o : CheckerState) (es : Entities) : SameScope o { o with entities := es } :=
  ⟨rfl, rfl, rfl, fun _ h => .inl h⟩

theorem modify (o : CheckerState) (i : Nat) (f : Binder → Binder)
    (hf : ∀ b, (f b).name = b.name ∧ (f b).simpleName = b.simpleName) :
    SameScope o { o with binders := o.binders.modify i f } :=
  ⟨rfl, rfl, names_modify o i f hf, fun _ h => .inl h⟩

theorem settle (o : CheckerState) (indices : List Nat) (scheme : Scheme) :
    SameScope o (o.settle indices scheme) := by
  unfold CheckerState.settle
  induction indices generalizing o with
  | nil => exact .refl o
  | cons i is ih =>
    exact (SameScope.modify o i (fun b => { b with scheme }) fun _ => ⟨rfl, rfl⟩).trans (ih _)

theorem opening (o : CheckerState) (region : Span) (path : String) :
    SameScope o (o.opening region path) :=
  ⟨rfl, rfl, rfl, fun _ h => .inl h⟩

theorem publishAll (o : CheckerState) (indices : List Nat) : SameScope o (o.publishAll indices) :=
  publishAll_keeps (fun _ _ _ _ _ h => h.trans (.entities _ _)) (.refl o)

theorem enterModule (o : CheckerState) (path : String) (name : Option Span) (region : Span) :
    SameScope o (o.enterModule path name region) := by
  have hmodule (o : CheckerState) : SameScope o (o.inModule path name region) :=
    ⟨rfl, rfl, rfl, fun _ h => .inl h⟩
  have hspaces := SameScope.entities o (o.entities.withNamespaces path "" (pathSegments path))
  cases name with
  | none => exact hspaces.trans (hmodule _)
  | some span => exact hspaces.trans ((SameScope.declareAt _ span _).trans (hmodule _))

end SameScope

/-- Later binders can be named only behind a name that was used before. -/
theorem Answers.keep {span : Span} {i : Nat} (later : List (Span × Nat)) (added : List (String × String))
    (h : o.Answers w span i) (hbound : ∀ v ∈ o.records.visible, v.2 < o.names.length)
    (hnames : o'.names = o.names ++ added)
    (hvisible : o'.records.visible = later ++ o.records.visible)
    (hlater : ∀ v ∈ later, span.stop ≤ v.1.start) : o'.Answers w span i := by
  intro offset hstart hstop
  obtain ⟨visible, hfind⟩ := h offset hstart hstop
  refine ⟨visible, ?_⟩
  have hnone : later.filter (·.1.touches offset) = [] := by
    refine List.filter_eq_nil_iff.mpr fun v hv => ?_
    have hle := hlater v hv
    simp only [Span.touches, Bool.and_eq_true, decide_eq_true_eq]
    omega
  rw [hvisible, List.filter_append, hnone, List.nil_append, ← hfind]
  refine List.find?_congr fun v hv => ?_
  rw [isNamed, isNamed, hnames, List.getElem?_append_left (hbound v (List.mem_filter.mp hv).1)]

namespace Scoped

theorem keep (h : Scoped w a live o) (hsame : SameScope o o') : Scoped w a live o' where
  scope := hsame.scope.trans h.scope
  standing := hsame.visible ▸ h.standing
  bound := hsame.visible ▸ hsame.names ▸ h.bound
  simple := hsame.names ▸ h.simple
  uses m hm hdef i hi := by
    rcases hsame.mentions m hm with hm | hm | ⟨symbol, hm⟩
    · obtain ⟨hstop, hanswers⟩ := h.uses m hm hdef i hi
      refine ⟨hstop, hanswers.keep [] [] h.bound ?_ hsame.visible nofun⟩
      rw [hsame.names, List.append_nil]
    · rw [hm] at hdef
      cases hdef
    · rw [hm] at hi
      cases hi

theorem later (h : Scoped w a live o) (ha : a ≤ a') : Scoped w a' live o where
  scope := h.scope
  standing := h.standing.later ha.2
  bound := h.bound
  simple := h.simple
  uses m hm hdef i hi := by
    obtain ⟨hstop, hanswers⟩ := h.uses m hm hdef i hi
    exact ⟨Nat.le_trans hstop ha.1, hanswers⟩

theorem use {n : Ident} {i : Nat} (h : Scoped w a live o) (ha : a ≤ a')
    (hstart : a.next ≤ n.span.start) (hstop : n.span.stop ≤ a'.stop)
    (hlive : ∀ v ∈ live, v.1.start ≤ n.span.start ∧ n.span.stop ≤ v.1.stop)
    (hw : w n.span = n.text) (hi : o.binder? n.text = some i) :
    Scoped w a' live (o.useBinder i n.span) := by
  have hused : SameScope o { o with binders := o.binders.modify i fun b => { b with used := true } } :=
    .modify o i _ fun _ => ⟨rfl, rfl⟩
  have h' := (h.keep hused).later ha
  refine ⟨h'.scope, h'.standing, h'.bound, h'.simple, fun m hm hdef j hj => ?_⟩
  rcases List.mem_cons.mp hm with rfl | hm
  · obtain rfl : i = j := Target.binder.inj hj
    refine ⟨hstop, fun offset hle hlt => ?_⟩
    have hfilter : o.records.visible.filter (·.1.touches offset) = live := by
      refine h.standing.filter_eq (Nat.le_trans hstart hle) fun v hv => ?_
      obtain ⟨hv, hv'⟩ := hlive v hv
      simp only [Span.touches, Bool.and_eq_true, decide_eq_true_eq]
      exact ⟨Nat.le_trans hv hle, Nat.le_trans (Nat.le_of_lt hlt) hv'⟩
    have hfind : (live.find? fun v => o.isNamed n.text v.2).map (·.2) = some i := by
      rw [← hi, binder?_eq, h.scope, List.find?_map]
      rfl
    obtain ⟨⟨visible, j⟩, hfound, hj⟩ := Option.map_eq_some_iff.mp hfind
    obtain rfl : j = i := hj
    refine ⟨visible, ?_⟩
    change (o.records.visible.filter _).find? _ = _
    rw [hfilter, hw, ← hfound]
    refine List.find?_congr fun v _ => ?_
    rw [isNamed, isNamed, show (o.useBinder j n.span).names = o.names from hused.names]
  · exact h'.uses m hm hdef j hj

theorem enter {b : Binder} {visible : Span} (h : Scoped w a live o)
    (hname : String.ofList (lastSegment b.name.toList) = b.simpleName) (hstart : a.stop ≤ visible.start) :
    Scoped w a ((visible, o.binders.size) :: live) (o.enter b visible) := by
  have hnames : (o.enter b visible).names = o.names ++ [(b.name, b.simpleName)] := by
    simp [names, CheckerState.enter]
  have hsize : o.binders.size = o.names.length := by simp [names]
  refine ⟨congrArg (o.binders.size :: ·) h.scope, .live h.standing, fun v hv => ?_, fun n hn => ?_,
    fun m hm hdef i hi => ?_⟩
  · rw [hnames, List.length_append]
    rcases List.mem_cons.mp hv with rfl | hv
    · exact Nat.lt_add_one_of_le (Nat.le_of_eq hsize)
    · exact Nat.lt_add_right _ (h.bound v hv)
  · rw [hnames] at hn
    rcases List.mem_append.mp hn with hn | hn
    · exact h.simple n hn
    · exact List.mem_singleton.mp hn ▸ hname
  · rcases List.mem_cons.mp hm with rfl | hm
    · cases hdef
    · obtain ⟨hstop, hanswers⟩ := h.uses m hm hdef i hi
      refine ⟨hstop, hanswers.keep [(visible, o.binders.size)] _ h.bound hnames rfl ?_⟩
      exact List.forall_mem_singleton.mpr (Nat.le_trans hstop hstart)

/-- The scope is restored behind the entries that end. -/
theorem close {scope : CheckerScope} (h : Scoped w a (new ++ live) o)
    (hscope : scope.binders = live.map (·.2)) (hnew : ∀ v ∈ new, v.1.stop < a.next) :
    Scoped w a live { o with scope } :=
  ⟨hscope, h.standing.close hnew, h.bound, h.simple, h.uses⟩

end Scoped
end CheckerState

open CheckerState

variable {L : Landmark → Prop} {w : Span → String} {a b : Cut} {live : List (Span × Nat)}
variable {o o' : CheckerState}

theorem Notes.sameScope (h : Notes L o o') : SameScope o o' := by
  induction h with
  | refl o => exact .refl o
  | note _ _ _ ih => exact (SameScope.note _ _ _).trans ih

theorem Fields.sameScope {path : String} {fields : List (Ident × TypeExpr)} {ms : List Member}
    (h : Fields L path fields ms o o') : SameScope o o' := by
  induction h with
  | nil o => exact .refl o
  | cons hnotes _ ih => exact hnotes.sameScope.trans ((SameScope.declareAt _ _ _).trans ih)

/-- Names are written as `w` tells, and those that are bound have no dots. -/
structure Written (L : Landmark → Prop) (w : Span → String) : Prop where
  use : ∀ n, L (.use n) → w n.span = n.text
  undotted : ∀ n, L (.binding n) → '.' ∉ n.text.toList

theorem Enters.scoped {visible : Span} {ofModule : Bool} {names : List Ident} {is : List Nat}
    (hL : Written L w) (h : Enters L visible ofModule names is o o') (hscoped : Scoped w a live o)
    (hstart : a.stop ≤ visible.start) :
    ∃ new, Scoped w a (new ++ live) o' ∧ ∀ v ∈ new, v.1 = visible := by
  induction h generalizing live with
  | nil => exact ⟨[], hscoped, nofun⟩
  | note _ _ _ ih => exact ih (hscoped.keep (.note _ _ _))
  | skip _ ih => exact ih hscoped
  | @bind n _ _ o _ b hn hname hsimple _ _ _ ih =>
    have hlast : String.ofList (lastSegment b.name.toList) = b.simpleName := by
      rw [hname, hsimple]
      split
      · unfold CheckerState.qualified
        split
        · rw [lastSegment_of_undotted (hL.undotted n hn), String.ofList_toList]
        · rw [String.toList_append, String.toList_append, List.append_assoc,
            show ".".toList ++ n.text.toList = '.' :: n.text.toList from rfl,
            lastSegment_append _ (hL.undotted n hn), String.ofList_toList]
      · rw [lastSegment_of_undotted (hL.undotted n hn), String.ofList_toList]
    obtain ⟨new, hnew, hvisible⟩ := ih (hscoped.enter hlast hstart)
    refine ⟨new ++ [(visible, o.binders.size)], by simpa using hnew, ?_⟩
    exact List.forall_mem_append.mpr ⟨hvisible, List.forall_mem_singleton.mpr rfl⟩

/-- The names in the expressions stand where every entry in scope can be named. -/
def Covers (live : List (Span × Nat)) (es : List Expr) : Prop :=
  ∀ v ∈ live, ∀ e ∈ es, e.NamesWithin v.1

theorem Covers.tail {e : Expr} {es : List Expr} (h : Covers live (e :: es)) : Covers live es :=
  fun v hv e he => h v hv e (List.mem_cons_of_mem _ he)

/-- A single expression with more entries that can be named in all of it. -/
theorem Covers.enter {new : List (Span × Nat)} {e : Expr} (h : Covers live [e])
    (hnew : ∀ v ∈ new, e.NamesWithin v.1) : Covers (new ++ live) [e] :=
  List.forall_mem_append.mpr ⟨fun v hv => List.forall_mem_singleton.mpr (hnew v hv), h⟩

theorem Covers.target {span dot : Span} {target : Expr} {name : Option Ident} {es : List Expr}
    (h : Covers live (.member span target dot name :: es)) : Covers live [target] := by
  refine fun v hv => List.forall_mem_singleton.mpr fun n hn => h v hv _ List.mem_cons_self n ?_
  rw [Expr.names_member]
  exact List.mem_append_left _ hn

theorem Covers.lambda {span : Span} {params : List Pattern} {body : Expr} {es : List Expr}
    (h : Covers live (.lambda span params body :: es)) : Covers live [body] := by
  refine fun v hv => List.forall_mem_singleton.mpr ?_
  have hlambda := h v hv _ List.mem_cons_self
  rwa [Expr.NamesWithin, Expr.names_lambda] at hlambda

theorem Covers.letIn {span : Span} {head : LetHead} {value body : Expr} {es : List Expr}
    (h : Covers live (.letIn span head value body :: es)) : Covers live [value] ∧ Covers live [body] := by
  have hparts : ∀ v ∈ live, value.NamesWithin v.1 ∧ body.NamesWithin v.1 := by
    intro v hv
    have hlet := h v hv _ List.mem_cons_self
    rwa [Expr.NamesWithin, Expr.names_letIn, List.forall_mem_append] at hlet
  exact ⟨fun v hv => List.forall_mem_singleton.mpr (hparts v hv).1,
    fun v hv => List.forall_mem_singleton.mpr (hparts v hv).2⟩

theorem Covers.children {e : Expr} {es : List Expr} (h : Covers live (e :: es)) (hplain : e.isPlain = true) :
    Covers live (e.children ++ es) := by
  refine fun v hv => List.forall_mem_append.mpr ?_
  obtain ⟨he, hes⟩ := List.forall_mem_cons.mp (h v hv)
  refine ⟨fun c hc n hn => he n ?_, hes⟩
  rw [Expr.names_of_isPlain hplain]
  exact List.mem_flatMap.mpr ⟨c, hc, hn⟩

/-- Checking the expressions keeps the state scoped. -/
def KeepsScoped (w : Span → String) (a : Cut) (es : List Expr) (b : Cut) (o o' : CheckerState) : Prop :=
  ∀ {live}, Covers live es → Scoped w a live o → Scoped w b live o'

/-- In front of the right-hand side of a binding its own name can be named, if it is recursive, and its
parameters. -/
theorem value_scoped {head : LetHead} {value : Expr} {stop : Nat} {ofModule : Bool} {early own : List Nat}
    {o₁ o₂ : CheckerState} (hL : Written L w)
    (hearly : Enters L ⟨head.span.start, stop⟩ ofModule head.early early o o₁)
    (hown : Enters L value.span false (Pattern.boundNamesOfAll head.params) own o₁ o₂)
    (hlies : head.Lies value stop a b) (hcovers : Covers live [value]) (hscoped : Scoped w a live o) :
    ∃ new own, Scoped w a (new ++ live) o₁ ∧ Scoped w a (own ++ (new ++ live)) o₂ ∧
      Covers (own ++ (new ++ live)) [value] ∧ (∀ v ∈ new, v.1 = ⟨head.span.start, stop⟩) ∧
      ∀ v ∈ own, v.1 = value.span := by
  obtain ⟨new, h₁, hnew⟩ := hearly.scoped hL hscoped hlies.front
  obtain ⟨own, h₂, howns⟩ := hown.scoped hL h₁ hlies.params
  have hcovers₁ : Covers (new ++ live) [value] := hcovers.enter fun v hv =>
    hnew v hv ▸ hlies.within.mono (Nat.le_refl _) hlies.ends
  exact ⟨new, own, h₁, h₂, hcovers₁.enter fun v hv => howns v hv ▸ hlies.paramsWithin, hnew, howns⟩

/-- The binders that a binding with the right-hand side `value` brings in can be named from the
binding, or from its end, up to `stop`. -/
theorem binding_scoped {head : LetHead} {value : Expr} {stop : Nat} {ofModule : Bool}
    {early own late : List Nat} {scheme : Scheme} {o₁ o₂ o₃ : CheckerState} (hL : Written L w)
    (hearly : Enters L ⟨head.span.start, stop⟩ ofModule head.early early o o₁)
    (hown : Enters L value.span false (Pattern.boundNamesOfAll head.params) own o₁ o₂)
    (hvalue : KeepsScoped w a [value] b o₂ o₃)
    (hlate : Enters L ⟨head.span.stop, stop⟩ ofModule head.late late
      (({ o₃ with scope := o₁.scope } : CheckerState).settle early scheme) o')
    (hlies : head.Lies value stop a b) (hcovers : Covers live [value]) (hscoped : Scoped w a live o) :
    ∃ new, Scoped w b (new ++ live) o' ∧
      ∀ v ∈ new, head.span.start ≤ v.1.start ∧ v.1.start ≤ head.span.stop ∧ v.1.stop = stop := by
  obtain ⟨new₁, new₂, h₁, h₂, hcovers₂, hnew₁, hnew₂⟩ :=
    value_scoped hL hearly hown hlies hcovers hscoped
  have h₃ := (hvalue hcovers₂ h₂).close h₁.scope fun v hv => hnew₂ v hv ▸ hlies.paramsEnd
  obtain ⟨new₃, h₄, hnew₃⟩ := hlate.scoped hL (h₃.keep (.settle _ early scheme)) hlies.behind
  refine ⟨new₃ ++ new₁, by simpa using h₄, List.forall_mem_append.mpr ⟨fun v hv => ?_, fun v hv => ?_⟩⟩
  · rw [hnew₃ v hv]
    exact ⟨hlies.valid, Nat.le_refl _, rfl⟩
  · rw [hnew₁ v hv]
    exact ⟨Nat.le_refl _, hlies.valid, rfl⟩

/-- In front of a member access stands what its name is looked up in. -/
theorem target_scoped {span dot : Span} {target : Expr} {name : Option Ident} {es : List Expr}
    {o₁ : CheckerState} (hlies : Lies (.member span target dot name :: es) a b)
    (htarget : ∀ {m}, Lies [target] a m → KeepsScoped w a [target] m o o₁)
    (hcovers : Covers live (.member span target dot name :: es)) (hscoped : Scoped w a live o) :
    ∃ k, Lies es k b ∧ Scoped w k live o₁ := by
  cases hlies with
  | plain hplain => cases hplain
  | member htargetLies hmk hname hes =>
    exact ⟨_, hes, (htarget htargetLies hcovers.target hscoped).later hmk⟩

theorem Visits.scoped (hL : Written L w) {es : List Expr}
    (h : Visits L es o o') (hlies : Lies es a b) : KeepsScoped w a es b o o' := by
  induction h generalizing a b with
  | nil =>
    intro live _ hscoped
    exact hscoped.later hlies.le
  | skip _ ih =>
    intro live hcovers hscoped
    exact ih hlies.tail hcovers.tail hscoped
  | note _ _ _ ih =>
    intro live hcovers hscoped
    exact ih hlies hcovers (hscoped.keep (.note _ _ _))
  | find _ _ _ _ _ ih =>
    intro live hcovers hscoped
    exact ih hlies hcovers (hscoped.keep (.note _ _ _))
  | @plain e es _ _ hplain _ ih =>
    intro live hcovers hscoped
    have hchildren : Lies (e.children ++ es) a b := by
      cases hlies with
      | plain _ h => exact h
      | ident | member | lambda | letIn => cases hplain
    exact ih hchildren (hcovers.children hplain) hscoped
  | @use n es i _ _ hn hi _ ih =>
    intro live hcovers hscoped
    cases hlies with
    | plain hplain => cases hplain
    | ident ham hstart hstop hes =>
      refine ih hes hcovers.tail ?_
      exact hscoped.use ham hstart hstop
        (fun v hv => hcovers v hv _ List.mem_cons_self n (by simp [Expr.names_ident])) (hL.use n hn) hi
  | access _ ih =>
    intro live hcovers hscoped
    refine ih hlies.tail hcovers.tail ?_
    exact hscoped.keep (.access _ _)
  | accessValue _ _ ih₁ ih₂ =>
    intro live hcovers hscoped
    obtain ⟨k, hes, hbehind⟩ := target_scoped hlies ih₁ hcovers hscoped
    exact ih₂ hes hcovers.tail (hbehind.keep (.access _ _))
  | accessMember _ _ _ ih₁ ih₂ =>
    intro live hcovers hscoped
    obtain ⟨k, hes, hbehind⟩ := target_scoped hlies ih₁ hcovers hscoped
    exact ih₂ hes hcovers.tail ((hbehind.keep (.access _ _)).keep (.note _ _ _))
  | @lambda span params body es _ o _ _ _ henters _ _ ih₁ ih₂ =>
    intro live hcovers hscoped
    cases hlies with
    | plain hplain => cases hplain
    | lambda hstart hwithin hend hbody hes =>
      obtain ⟨new, hscoped₁, hnew⟩ := henters.scoped hL hscoped hstart
      have hbodyCovers := hcovers.lambda.enter fun v hv => hnew v hv ▸ hwithin
      have hscoped₂ := ih₁ hbody hbodyCovers hscoped₁
      refine ih₂ hes hcovers.tail ?_
      exact hscoped₂.close hscoped.scope fun v hv => hnew v hv ▸ hend
  | @letIn span head value body es _ _ _ _ o _ _ _ _ _ _ hearly hown _ hlate _ _ ih₁ ih₂ ih₃ =>
    intro live hcovers hscoped
    cases hlies with
    | plain hplain => cases hplain
    | letIn hhead hwithin hend hvalue hbody hes =>
      obtain ⟨hvalueCovers, hbodyCovers⟩ := hcovers.letIn
      obtain ⟨new, hscoped₁, hnew⟩ := binding_scoped hL hearly hown (ih₁ hvalue) hlate hhead hvalueCovers
        hscoped
      have hbodyCovers := hbodyCovers.enter fun v hv =>
        hwithin.mono (hnew v hv).2.1 (Nat.le_of_eq (hnew v hv).2.2.symm)
      have hscoped₂ := ih₂ hbody hbodyCovers hscoped₁
      refine ih₃ hes hcovers.tail ?_
      exact hscoped₂.close hscoped.scope fun v hv => (hnew v hv).2.2 ▸ hend

theorem covers_of_lies {es : List Expr} {c : Cut} (hlies : Lies es a b) (hbc : b ≤ c)
    (hlive : ∀ v ∈ live, v.1.start ≤ a.next ∧ c.stop ≤ v.1.stop) : Covers live es := fun v hv _ he =>
  (hlies.names_between he).mono (hlive v hv).1 (Nat.le_trans hbc.1 (hlive v hv).2)

/-- The declarations of a module bring in binders that can be named up to its end. -/
theorem DeclsVisit.scoped (hL : Written L w) {stop : Nat} {ds : List Decl}
    (h : DeclsVisit L stop ds o o') (hlies : DeclsLie stop ds a b) (hstop : b.stop ≤ stop)
    (hlive : ∀ v ∈ live, v.1.start ≤ a.next ∧ b.stop ≤ v.1.stop) (hscoped : Scoped w a live o) :
    ∃ new, Scoped w b (new ++ live) o' ∧ ∀ v ∈ new, v.1.stop = stop := by
  induction h generalizing a b live with
  | nil => exact ⟨[], hscoped.later hlies.le, nofun⟩
  | skip _ ih => exact ih hlies.tail hstop hlive hscoped
  | expr he _ ih =>
    cases hlies with
    | inert hinert => cases hinert
    | expr heLies hds =>
      have hscoped₁ := he.scoped hL heLies (covers_of_lies heLies hds.le hlive) hscoped
      exact ih hds hstop (fun v hv => ⟨Nat.le_trans (hlive v hv).1 heLies.le.2, (hlive v hv).2⟩) hscoped₁
  | binding hvisited _ ih =>
    cases hlies with
    | inert hinert => cases hinert
    | @binding _ _ _ _ _ m _ hhead hnext hvalue hds =>
      obtain ⟨hearly, hown, hvisits, hlate⟩ := hvisited
      obtain ⟨new, hscoped₁, hnew⟩ := binding_scoped hL hearly hown (hvisits.scoped hL hvalue) hlate hhead
        (covers_of_lies hvalue hds.le hlive) hscoped
      have hlive₁ : ∀ v ∈ new ++ live, v.1.start ≤ m.next ∧ b.stop ≤ v.1.stop := by
        refine List.forall_mem_append.mpr ⟨fun v hv => ?_, fun v hv => ?_⟩
        · obtain ⟨-, hstart, hend⟩ := hnew v hv
          exact ⟨Nat.le_trans hstart hnext, hend ▸ hstop⟩
        · exact ⟨Nat.le_trans (hlive v hv).1 hvalue.le.2, (hlive v hv).2⟩
      obtain ⟨new', hscoped₂, hnew'⟩ := ih hds hstop hlive₁ (hscoped₁.keep (.publishAll _ _))
      refine ⟨new' ++ new, by simpa using hscoped₂, ?_⟩
      exact List.forall_mem_append.mpr ⟨hnew', fun v hv => (hnew v hv).2.2⟩
  | opening _ hnotes _ ih =>
    exact ih hlies.tail hstop hlive ((hscoped.keep hnotes.sameScope).keep (.opening _ _ _))
  | @module stop span name members ds o _ _ _ _ ih₁ ih₂ =>
    cases hlies with
    | inert hinert => cases hinert
    | module hal _ _ hmembers hend hmk hclosed hds =>
      have hinner := (hscoped.keep (.enterModule o (o.qualified name.text) (some name.span) span)).later hal
      obtain ⟨new, hscoped₁, hnew⟩ := ih₁ hmembers hend (fun v hv => ⟨Nat.le_trans (hlive v hv).1 hal.2,
        Nat.le_trans (Nat.le_trans hmk.1 hds.le.1) (hlive v hv).2⟩) hinner
      have hscoped₂ := (hscoped₁.later hmk).close hscoped.scope fun v hv => hnew v hv ▸ hclosed
      refine ih₂ hds hstop (fun v hv => ⟨Nat.le_trans (hlive v hv).1 ?_, (hlive v hv).2⟩) hscoped₂
      exact Nat.le_trans hal.2 (Nat.le_trans hmembers.le.2 hmk.2)
  | @record _ _ name _ path ms _ o o₁ _ _ hfields _ ih =>
    refine ih hlies.tail hstop hlive ?_
    have hdeclared := hscoped.keep (.entities o (o.entities.declare (.ofType path name.span [])))
    exact ((hdeclared.keep hfields.sameScope).keep (.entities o₁ _)).keep (.declareAt _ _ _)
  | abbreviation _ hnotes _ ih =>
    exact ih hlies.tail hstop hlive ((hscoped.keep hnotes.sameScope).keep (.declareAt _ _ _))

theorem SyntaxFile.startOutline_scoped (f : SyntaxFile) (context : Context) (w : Span → String) (a : Cut) :
    Scoped w a [] (f.startOutline context) := by
  have hinitial : Scoped w a [] (.initial context.libraryNames) := ⟨rfl, .nil, nofun, nofun, nofun⟩
  unfold startOutline
  cases f.moduleName? with
  | none => exact hinitial
  | some path => exact hinitial.keep (.enterModule _ _ _ _)

end ScriptAnalyzer

import ScriptAnalyzer.Proofs.Syntax.DeclarationPlaces
import ScriptAnalyzer.Proofs.Typing.Safety

/-!
Names, annotations and patterns are safe to check, wherever they stand in the text.
-/

namespace ScriptAnalyzer

open Referring

variable {n : Nat} {k k' : Extent} {s : CheckerState}

/-! The places of trees -/

namespace Referring

instance : Referring Ident where
  Within k name := Within k name.span
  mono hk h := mono (α := Span) hk h

instance : Referring LongIdent where
  Within k name := Within k name.spans
  mono hk h := mono (α := List Span) hk h

instance : Referring TypeExpr where
  Within k t := Within k t.spans
  mono hk h := mono (α := List Span) hk h

instance : Referring Pattern where
  Within k p := Within k p.spans
  mono hk h := mono (α := List Span) hk h

instance : Referring LetHead where
  Within k head := Within k head.spans
  mono hk h := mono (α := List Span) hk h

instance : Referring Expr where
  Within k e := Within k e.spans ∧ e.EndsScopes
  mono hk h := ⟨mono hk h.1, h.2⟩

end Referring

theorem LongIdent.within_iff {name : LongIdent} :
    Within k name ↔ Within k name.span ∧ Within k name.parts := by
  refine within_cons.trans (and_congr_right fun _ => ⟨fun h part hpart => ?_, fun h span hspan => ?_⟩)
  · exact h _ (List.mem_map_of_mem hpart)
  · obtain ⟨part, hpart, rfl⟩ := List.mem_map.mp hspan
    exact h part hpart

theorem TypeExpr.within_spansOfAll {ts : List TypeExpr} : Within k (spansOfAll ts) ↔ Within k ts := by
  induction ts with
  | nil => exact ⟨fun _ => within_nil, fun _ => within_nil⟩
  | cons t ts ih => rw [spansOfAll, within_append, within_cons, ih]; rfl

theorem Pattern.within_spansOfAll {ps : List Pattern} : Within k (spansOfAll ps) ↔ Within k ps := by
  induction ps with
  | nil => exact ⟨fun _ => within_nil, fun _ => within_nil⟩
  | cons p ps ih => rw [spansOfAll, within_append, within_cons, ih]; rfl

/-! Entities -/

namespace CheckerState

theorem Sound.entity {path : String} {e : Entity} (hs : s.Sound n) (h : s.entities.find? path = some e) :
    Within (s.extent n) e :=
  hs.entities e (List.mem_of_find?_eq_some h)

theorem Sound.staticMember {path name : String} {m : Member} (hs : s.Sound n)
    (h : (s.entities.find? path).bind (·.staticMember? name) = some m) : Within (s.extent n) m := by
  obtain ⟨e, he, hm⟩ := Option.bind_eq_some_iff.mp h
  exact (hs.entity he).1 m (List.mem_of_find?_eq_some (Option.filter_eq_some_iff.mp hm).1)

theorem Sound.memberOf {name owner : String} {owners : List String} {m : Member} (hs : s.Sound n)
    (h : s.memberOf? name owners = some (owner, m)) : Within (s.extent n) m := by
  obtain ⟨path, -, hpath⟩ := List.exists_of_findSome?_eq_some h
  obtain ⟨m', hm', heq⟩ := Option.map_eq_some_iff.mp hpath
  obtain ⟨-, rfl⟩ := Prod.mk.inj heq
  exact hs.staticMember hm'

theorem Sound.memberOfType {t : Ty} {name owner : String} {m : Member} (hs : s.Sound n)
    (h : s.entities.memberOfType? t name = some (owner, m)) : Within (s.extent n) m := by
  obtain ⟨e, he, hm⟩ | ⟨-, hcommon⟩ := Entities.mem_membersOfType (List.mem_of_find?_eq_some h)
  · exact (hs.entity he).1 m hm
  · exact Catalog.within_object.1 m hcommon

/-- What a name means without qualification. -/
theorem Sound.meaning {name : String} {m : Meaning} (hs : s.Sound n) (h : s.meaning? name = some m) :
    match m with
    | .binder index => Within (s.extent n) index
    | .member _ m => Within (s.extent n) m
    | .entity _ => True := by
  unfold meaning? at h
  split at h
  case h_1 index hindex =>
    obtain rfl := Option.some.inj h
    exact hs.scope index (List.mem_of_find?_eq_some hindex)
  case h_2 =>
    split at h
    case h_1 owner m' hfound =>
      obtain rfl := Option.some.inj h
      exact hs.memberOf hfound
    case h_2 =>
      obtain ⟨path, -, rfl⟩ := Option.map_eq_some_iff.mp h
      trivial

end CheckerState

namespace Checker

/-! Names -/

theorem mentionSegments_safe (before : String) {parts : List Ident} (h : Within k parts) :
    Safe n k (mentionSegments before parts) := by
  induction parts generalizing before k with
  | nil => exact .pure trivial
  | cons part parts ih =>
    obtain ⟨hpart, hparts⟩ := within_cons.mp h
    rw [mentionSegments]
    refine .getBind fun s hs hk => ?_
    split
    case h_1 e he =>
      exact (mention_safe (mono hk hpart) (hs.entity he).2.2).next (ih _ (mono hk hparts))
    case h_2 => exact ih _ (mono hk hparts)

theorem mentionEntity_safe {name : LongIdent} (h : Within k name.parts) (path : String) :
    Safe n k (mentionEntity name path) :=
  mentionSegments_safe _ h

theorem entityOf_safe {e : Expr} (h : ∀ name, e.longName? = some name → Within k name.parts) :
    Safe n k (entityOf? e) := by
  unfold entityOf?
  split
  case h_1 => exact .pure within_none
  case h_2 name hname =>
    refine readScope_safe.next (.getBind fun s hs hk => ?_)
    split
    · exact .pure within_none
    · split
      · exact .pure within_none
      · exact (mentionEntity_safe (mono hk (h name hname)) _).next (.pure (within_some.mpr trivial))

/-! Annotations -/

theorem typeVariable_safe (name : String) : Safe n k (typeVariable name) := by
  refine .getBind fun s hs hk => ?_
  split
  case h_1 t ht =>
    obtain ⟨before, behind, heq, -⟩ := List.lookup_eq_some_iff.mp ht
    exact .pure (hs.typeVars (name, t) (by simp [heq])).2
  case h_2 =>
    refine fresh_safe.bind fun t k₁ _ ht => .next (.modify fun s₁ hs₁ hk₁ => ?_) (.pure ht)
    exact ⟨{ hs₁ with typeVars := within_cons.mpr ⟨⟨trivial, mono hk₁ ht⟩, hs₁.typeVars⟩ }, le_refl _⟩

theorem abbreviation_safe (name : String) : Safe n k (abbreviation? name) := by
  refine .getBind fun s hs hk => .pure fun t ht => ?_
  obtain ⟨owner, -, howner⟩ := List.exists_of_findSome?_eq_some ht
  obtain ⟨before, behind, heq, -⟩ := List.lookup_eq_some_iff.mp howner
  exact (hs.abbreviations (qualify owner name, t) (by simp [heq])).2

theorem entityType_safe {name : LongIdent} (h : Within k name) : Safe n k (entityType name) := by
  refine .getBind fun s hs hk => ?_
  dsimp only
  split
  case h_1 e _ =>
    have hparts := mono hk (LongIdent.within_iff.mp h).2
    exact (mentionEntity_safe hparts e.path).next (.pure (Ty.within_atom _))
  case h_2 =>
    exact (report_safe _ (mono hk (LongIdent.within_iff.mp h).1)).next (.pure Ty.within_error)

theorem namedType_safe {name : LongIdent} (h : Within k name) : Safe n k (namedType name) := by
  simp only [namedType]
  split
  case isTrue => exact .pure (Ty.within_atom _)
  case isFalse =>
    split
    case isTrue => exact fresh_safe.bind fun t _ _ ht => .pure (Ty.within_list.mpr ht)
    case isFalse =>
      refine (abbreviation_safe _).bind fun t? k₁ hk ht => ?_
      split
      case h_1 t => exact .pure (within_some.mp ht)
      case h_2 => exact entityType_safe (mono hk h)

theorem constructedType_safe {argument : Ty} {ctor : LongIdent} (ht : Within k argument)
    (h : Within k ctor) : Safe n k (constructedType argument ctor) := by
  unfold constructedType
  split
  · exact .pure (Ty.within_list.mpr ht)
  · exact .pure (Ty.within_array.mpr ht)
  · exact (report_safe _ (LongIdent.within_iff.mp h).1).next (.pure Ty.within_error)

mutual

theorem annotation_safe {k : Extent} (t : TypeExpr) (h : Within k t) : Safe n k ( annotation t) := by
  match t with
  | .named _ name => exact namedType_safe (within_cons.mp h).2
  | .var _ name => exact typeVariable_safe name.text
  | .app _ argument ctor =>
    obtain ⟨hargument, hctor⟩ := within_append.mp (within_cons.mp h).2
    refine (annotation_safe argument hargument).bind fun t _ hk ht => ?_
    exact constructedType_safe ht (mono (α := LongIdent) hk hctor)
  | .array _ element =>
    refine (annotation_safe element (within_cons.mp h).2).bind fun t _ _ ht => ?_
    exact .pure (Ty.within_array.mpr ht)
  | .function _ domain codomain =>
    obtain ⟨hdomain, hcodomain⟩ := within_append.mp (within_cons.mp h).2
    refine (annotation_safe domain hdomain).bind fun param _ hk hparam => ?_
    refine (annotation_safe codomain (mono (α := TypeExpr) hk hcodomain)).bind fun ret _ hk₁ hret => ?_
    exact .pure (Ty.within_function.mpr ⟨mono hk₁ hparam, hret⟩)
  | .tuple _ items =>
    have hitems := TypeExpr.within_spansOfAll.mp (within_cons.mp h).2
    exact (annotations_safe items hitems).bind fun ts _ _ hts => .pure (Ty.within_tuple.mpr hts)
  | .error _ => exact .pure Ty.within_error

theorem annotations_safe {k : Extent} (ts : List TypeExpr) (h : Within k ts) : Safe n k (annotations ts) := by
  match ts with
  | [] => exact .pure within_nil
  | t :: ts =>
    obtain ⟨ht, hts⟩ := within_cons.mp h
    refine (annotation_safe t ht).bind fun first _ hk hfirst => ?_
    refine (annotations_safe ts (mono hk hts)).bind fun rest _ hk₁ hrest => ?_
    exact .pure (within_cons.mpr ⟨mono hk₁ hfirst, hrest⟩)

end

/-! Patterns -/

theorem bind_safe {name : Ident} {scheme : Scheme} {visible : Span} (hname : Within k name)
    (hscheme : Within k scheme) (hvisible : Within k visible) (params : List String) (ofModule : Bool) :
    Safe n k (bind name scheme params visible ofModule) := by
  intro s hs hk
  simp only [bind, yields_bind, yields_get, yields_set, yields_pure]
  obtain ⟨hs₁, hle, hindex⟩ := hs.push visible
    { name := if ofModule then s.qualified name.text else name.text
      simpleName := name.text, scheme, params, span := name.span }
    ⟨mono hk hscheme, mono (α := Ident) hk hname⟩ (mono hk hvisible)
  refine (declare_safe (mono (α := Ident) (hk.trans hle) hname) hindex _ hs₁ (le_refl _)).mono
    fun _ s₂ h₂ => ⟨h₂.1, hle.trans h₂.2.1, mono h₂.2.1 hindex⟩

theorem freshAll_safe (ps : List Pattern) : Safe n k (freshAll ps) := by
  induction ps generalizing k with
  | nil => exact .pure within_nil
  | cons p ps ih =>
    exact fresh_safe.bind fun t _ _ ht => ih.bind fun ts _ hk hts =>
      .pure (within_cons.mpr ⟨mono hk ht, hts⟩)

mutual

theorem bindPattern_safe {k : Extent} {visible : Span} (hvisible : Within k visible) (ofModule : Bool)
    (p : Pattern) (h : Within k p) {t : Ty} (ht : Within k t) :
    Safe n k (bindPattern visible ofModule p t) := by
  match p with
  | .named _ name =>
    have hname : Within k name.span := h _ (by simp [Pattern.spans])
    exact (bind_safe hname (Scheme.within_mono ht) hvisible [] ofModule).bind fun i _ _ hi =>
      .pure (within_singleton.mpr hi)
  | .wildcard _ | .error _ => exact .pure within_nil
  | .unit span =>
    exact (expect_safe (Ty.within_atom _) ht (within_singleton.mp h)).next (.pure within_nil)
  | .tuple span items =>
    obtain ⟨hspan, hitems⟩ := within_cons.mp h
    refine (freshAll_safe items).bind fun parts k₁ hk hparts => ?_
    refine (expect_safe (Ty.within_tuple.mpr hparts) (mono hk ht) (mono hk hspan)).next ?_
    have hitems := mono hk (Pattern.within_spansOfAll.mp hitems)
    exact bindPatterns_safe (mono hk hvisible) ofModule items hitems hparts
  | .typed span inner written =>
    obtain ⟨hspan, hparts⟩ := within_cons.mp h
    obtain ⟨hinner, hwritten⟩ := within_append.mp hparts
    refine (annotation_safe written hwritten).bind fun annotated k₁ hk hannotated => ?_
    refine (expect_safe hannotated (mono hk ht) (mono hk hspan)).next ?_
    exact bindPattern_safe (mono hk hvisible) ofModule inner (mono (α := Pattern) hk hinner) hannotated

theorem bindPatterns_safe {k : Extent} {visible : Span} (hvisible : Within k visible) (ofModule : Bool)
    (ps : List Pattern) (h : Within k ps) {ts : List Ty} (hts : Within k ts) :
    Safe n k (bindPatterns visible ofModule ps ts) := by
  match ps, ts with
  | p :: ps, t :: ts =>
    obtain ⟨hp, hps⟩ := within_cons.mp h
    obtain ⟨ht, hts⟩ := within_cons.mp hts
    refine (bindPattern_safe hvisible ofModule p hp ht).bind fun first _ hk hfirst => ?_
    refine (bindPatterns_safe (mono hk hvisible) ofModule ps (mono hk hps) (mono hk hts)).bind
      fun rest _ hk₁ hrest => ?_
    exact .pure (within_append.mpr ⟨mono hk₁ hfirst, hrest⟩)
  | [], _ => exact .pure within_nil
  | _ :: _, [] => exact .pure within_nil

end

theorem bindParams_safe {visible : Span} (hvisible : Within k visible) {ps : List Pattern}
    (h : Within k ps) {expected : Option Ty} (hexpected : Within k expected) :
    Safe n k (bindParams visible ps expected) := by
  induction ps generalizing k expected with
  | nil => exact .pure ⟨within_nil, hexpected⟩
  | cons p ps ih =>
    obtain ⟨hp, hps⟩ := within_cons.mp h
    have hrest {t : Ty} {result? : Option Ty} {k₁ : Extent} (hk : k ≤ k₁) (ht : Within k₁ t)
        (hresult : Within k₁ result?) : Safe n k₁ (bindParamsFrom visible p ps t result?) := by
      refine (bindPattern_safe (mono hk hvisible) false p (mono hk hp) ht).bind fun _ k₂ hk₂ _ => ?_
      have hk := hk.trans hk₂
      refine (ih (mono hk hvisible) (mono hk hps) (mono hk₂ hresult)).bind fun r _ hk₃ hr => ?_
      exact .pure ⟨within_cons.mpr ⟨mono hk₃ (mono hk₂ ht), hr.1⟩, hr.2⟩
    unfold bindParams
    split
    case h_1 param ret =>
      obtain ⟨hparam, hret⟩ := Ty.within_function.mp (within_some.mp hexpected)
      refine (shallow_safe hret).bind fun ret k₁ hk hret => ?_
      exact hrest hk (mono hk hparam) (within_some.mpr hret)
    case h_2 => exact fresh_safe.bind fun t k₁ hk ht => hrest hk ht within_none

end Checker

end ScriptAnalyzer

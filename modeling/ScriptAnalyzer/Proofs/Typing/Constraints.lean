import ScriptAnalyzer.Proofs.Typing.Rules
import ScriptAnalyzer.Proofs.Typing.Steps

namespace ScriptAnalyzer

open TypeStore (Satisfies)

/-- The scheme with what the solution gives to the variables that do not stand for any type. -/
def Scheme.under (σ : Solution) (scheme : Scheme) : Scheme :=
  ⟨scheme.vars, scheme.type.subst fun v => if v ∈ scheme.vars then .var v else σ.type v⟩

def Environment.under (σ : Solution) (Γ : Environment) : Environment :=
  Γ.map fun entry => (entry.1, entry.2.under σ)

def Environment.IsMono (Γ : Environment) : Prop := ∀ entry ∈ Γ, entry.2.vars = []

theorem Environment.IsMono.append {Γ Γ' : Environment} (h : Γ.IsMono) (h' : Γ'.IsMono) :
    Environment.IsMono (Γ ++ Γ') :=
  fun entry hentry => (List.mem_append.mp hentry).elim (h entry) (h' entry)

@[simp] theorem Scheme.under_mono (σ : Solution) (t : Ty) :
    (Scheme.mono t).under σ = .mono (t.subst σ.type) := by
  simp [under, mono]

@[simp] theorem Environment.under_nil (σ : Solution) : Environment.under σ [] = [] := rfl

@[simp] theorem Environment.under_cons (σ : Solution) (name : String) (scheme : Scheme)
    (Γ : Environment) :
    Environment.under σ ((name, scheme) :: Γ) = (name, scheme.under σ) :: Γ.under σ :=
  rfl

@[simp] theorem Environment.under_append (σ : Solution) (Γ Γ' : Environment) :
    Environment.under σ (Γ ++ Γ') = Γ.under σ ++ Γ'.under σ :=
  List.map_append

@[simp] theorem Environment.under_reverse (σ : Solution) (Γ : Environment) :
    Environment.under σ Γ.reverse = (Γ.under σ).reverse :=
  List.map_reverse

theorem Ty.subst_curried (f : Nat → Ty) (params : List Ty) (ret : Ty) :
    (curried params ret).subst f = curried (params.map (subst f)) (ret.subst f) := by
  induction params with
  | nil => rfl
  | cons param params ih => exact congrArg (function (param.subst f)) ih

namespace CheckerState

variable {F : Nat → Prop} {bound : List Nat} {s s' : CheckerState}

def abbreviation? (s : CheckerState) (name : String) : Option Ty :=
  (enclosingPaths s.scope.modulePath ++ [""]).findSome? fun owner =>
    s.abbreviations.lookup (qualify owner name)

def typeEntity? (s : CheckerState) (segments : List String) : Option Entity :=
  ((s.entity? segments).bind s.entities.find?).filter (·.kind == .type)

def typeNames (s : CheckerState) (σ : Solution) : TypeNames where
  typeVar := σ.named
  abbreviation? name := (s.abbreviation? name).map (·.subst σ.type)
  entity? segments := (s.typeEntity? segments).map (·.path)

theorem Frame.typeNames (h : Frame bound s s') (σ : Solution) : s'.typeNames σ = s.typeNames σ := by
  have hmodule : s'.scope.modulePath = s.scope.modulePath := by rw [h.scope]
  have hopens : s'.scope.opens = s.scope.opens := by rw [h.scope]
  have habbreviation (name : String) : s'.abbreviation? name = s.abbreviation? name := by
    rw [abbreviation?, abbreviation?, hmodule, h.abbreviations]
  have hentity (segments : List String) : s'.typeEntity? segments = s.typeEntity? segments := by
    simp only [typeEntity?, entity?, searchPaths, hmodule, hopens, h.entities]
  simp only [CheckerState.typeNames, habbreviation, hentity]

theorem Sane.abbreviation {name : String} {t : Ty} (hs : Sane F s)
    (h : s.abbreviation? name = some t) : t.Live F s.store.size := by
  obtain ⟨owner, -, hlookup⟩ := List.exists_of_findSome?_eq_some h
  obtain ⟨before, behind, heq, -⟩ := List.lookup_eq_some_iff.mp hlookup
  exact hs.abbreviations (qualify owner name, t) (by simp [heq])

theorem Sane.symbol {path : String} {e : Entity} (hs : Sane F s) (h : s.entities.find? path = some e) :
    e.symbol.ErrorFree :=
  .entity fun o ho => (hs.constructors e (List.mem_of_find?_eq_some h) o ho).errorFree

end CheckerState

namespace Checker

open CheckerState

variable (F : Nat → Prop)

theorem yields_abbreviation? (name : String) (s : CheckerState)
    (Q : Option Ty → CheckerState → Prop) :
    Yields (abbreviation? name) s Q ↔ Q (s.abbreviation? name) s :=
  Iff.rfl

/-! Annotations -/

theorem mentionSegments_step (before : String) (parts : List Ident) (s : CheckerState) :
    (mentionSegments before parts).Yields s fun _ s' =>
      Step F [] s s' True True fun _ => True := by
  induction parts generalizing before s with
  | nil => exact .done id fun _ _ => trivial
  | cons part parts ih =>
    simp only [mentionSegments, yields_bind, yields_get]
    split
    case h_1 e he =>
      refine (mention_step F part.span (.fixed e.symbol) s).bind fun _ s₁ h₁ => ?_
      refine (ih _ s₁).mono fun _ s₂ h₂ => .of_sane ?_
      exact h₁.next (fun h => h.2.symbol he) (h₂.imp (fun _ => trivial) (fun _ => id) fun _ _ _ _ => id)
    case h_2 => exact ih _ s

theorem mentionEntity_step (name : LongIdent) (path : String) (s : CheckerState) :
    (mentionEntity name path).Yields s fun _ s' => Step F [] s s' True True fun _ => True :=
  mentionSegments_step F _ _ s

theorem step_of_typeVar (name : String) (t : Ty) {s : CheckerState}
    (hnone : s.typeVars.lookup name = none) :
    Step F [] s { s with typeVars := (name, t) :: s.typeVars } (t.Live F s.store.size) True fun σ =>
      σ.named name = t.subst σ.type := by
  refine ⟨⟨Nat.le_refl _, Nat.le_refl _, rfl, rfl, rfl, ?_, fun _ b h => ⟨b, h, rfl, rfl⟩, nofun⟩,
    fun ht _ hs => ⟨⟨hs.frozen, hs.closed, ?_, hs.abbreviations, hs.constructors⟩,
      .of_store (.refl F _) rfl rfl, trivial, ?_⟩⟩
  · intro name' t' ht'
    have hne : (name' == name) = false := by
      rw [beq_eq_false_iff_ne]
      rintro rfl
      rw [hnone] at ht'
      cases ht'
    simpa [List.lookup_cons, hne] using ht'
  · exact List.forall_mem_cons.mpr ⟨ht, hs.typeVars⟩
  · exact fun σ hσ => hσ.named name t (by simp)

theorem typeVariable_step (name : String) (s : CheckerState) :
    (typeVariable name).Yields s fun t s' =>
      Step F [] s s' True (t.Live F s'.store.size) fun σ => σ.named name = t.subst σ.type := by
  simp only [typeVariable, yields_bind, yields_get]
  split
  case h_1 t ht =>
    refine .here fun _ hs => ⟨?_, fun σ hσ => hσ.named name t ht⟩
    obtain ⟨before, behind, heq, -⟩ := List.lookup_eq_some_iff.mp ht
    exact hs.typeVars (name, t) (by simp [heq])
  case h_2 hnone =>
    simp only [yields_bind, yields_fresh, yields_modify, yields_pure]
    have hfresh := fresh_step F s
    rw [yields_fresh] at hfresh
    have hnamed : Step F [] { s with store := s.store.fresh.2 } _ _ _ _ :=
      step_of_typeVar F name s.store.fresh.1 hnone
    exact hfresh.next (fun _ => trivial)
      (hnamed.imp And.right (fun h _ => h.2) fun _ _ _ h _ => h)

theorem entityType_step (name : LongIdent) (s : CheckerState) :
    (entityType name).Yields s fun t s' =>
      Step F [] s s' True (t.Live F s'.store.size) fun σ =>
        ∃ path, (s.typeNames σ).entity? name.segments = some path ∧
          t.subst σ.type = .ofEntityPath path := by
  simp only [entityType, yields_bind, yields_get]
  split
  case h_1 e he =>
    refine (mentionEntity_step F name e.path s).bind fun _ s₁ h₁ => ?_
    refine h₁.imp id (fun _ _ => Ty.live_ofEntityPath _) fun _ _ σ _ => ⟨e.path, ?_, rfl⟩
    exact congrArg (Option.map _) he
  case h_2 =>
    refine (report_step F _ name.span s rfl).bind fun _ s₁ h₁ => ?_
    exact h₁.imp id (fun _ => False.elim) fun _ => False.elim

theorem namedType_step (span : Span) (name : LongIdent) (s : CheckerState) :
    (namedType name).Yields s fun t s' =>
      Step F [] s s' True (t.Live F s'.store.size) fun σ =>
        Denotes (s.typeNames σ) (.named span name) (t.subst σ.type) := by
  obtain ⟨head, tail⟩ := name
  have hrender : tail = [] → LongIdent.render ⟨head, tail⟩ = head.text := by
    rintro rfl
    exact String.intercalate_singleton
  -- the built-in names come first, then abbreviations, then entities
  simp only [namedType]
  split
  case isTrue h =>
    simp only [Bool.and_eq_true, List.isEmpty_iff, List.contains_iff_mem] at h
    obtain ⟨rfl, hatomic⟩ := h
    rw [hrender rfl] at hatomic ⊢
    exact .done (fun _ => Ty.live_atom _) fun _ σ => .atomic hatomic
  case isFalse hatomic =>
  split
  case isTrue h =>
    simp only [Bool.and_eq_true, List.isEmpty_iff, beq_iff_eq] at h
    obtain ⟨rfl, hlist⟩ := h
    rw [hrender rfl] at hlist
    obtain ⟨text, nameSpan⟩ := head
    subst hlist
    refine (fresh_step F s).bind fun t s₁ h₁ => ?_
    exact h₁.imp id (fun _ => Ty.live_list.mpr) fun _ _ σ _ => .anyList (t.subst σ.type)
  case isFalse hlist =>
  have hbuiltIn : ¬LongIdent.IsBuiltIn ⟨head, tail⟩ := by
    rintro ⟨rfl, hin | heq⟩
    · simp [hrender rfl, hin] at hatomic
    · exact hlist (by simp [hrender rfl, show head.text = "list" from heq])
  simp only [yields_bind, yields_abbreviation?]
  cases ht : s.abbreviation? (LongIdent.render ⟨head, tail⟩) with
  | some t =>
    refine .here fun _ hs => ⟨hs.abbreviation ht, fun σ _ => .abbreviation hbuiltIn ?_⟩
    exact congrArg (Option.map _) ht
  | none =>
    refine (entityType_step F ⟨head, tail⟩ s).mono fun t s₁ h₁ => ?_
    refine h₁.imp id (fun _ => id) fun _ _ σ h => ?_
    obtain ⟨path, hpath, heq⟩ := h
    exact heq ▸ .entity hbuiltIn (congrArg (Option.map _) ht) hpath

theorem constructedType_step (span : Span) (argument : TypeExpr) (t : Ty) (ctor : LongIdent)
    (s : CheckerState) :
    (constructedType t ctor).Yields s fun t' s' =>
      Step F [] s s' (t.Live F s.store.size) (t'.Live F s'.store.size) fun σ =>
        Denotes (s.typeNames σ) argument (t.subst σ.type) →
          Denotes (s.typeNames σ) (.app span argument ctor) (t'.subst σ.type) := by
  unfold constructedType
  split
  case h_1 h => exact .done Ty.live_list.mpr fun _ σ ht => .list h ht
  case h_2 h => exact .done Ty.live_array.mpr fun _ σ ht => .arrayOf h ht
  case h_3 =>
    refine (report_step F _ ctor.span s rfl).bind fun _ s₁ h₁ => ?_
    exact h₁.imp (fun _ => trivial) (fun _ => False.elim) fun _ => False.elim

mutual

theorem annotation_step (written : TypeExpr) (s : CheckerState) :
    ( annotation written).Yields s fun t s' =>
      Step F [] s s' (written.isWhole = true) (t.Live F s'.store.size) fun σ =>
        Denotes (s.typeNames σ) written (t.subst σ.type) :=
  match written with
  | .named span name =>
    (namedType_step F span name s).mono fun _ _ h => h.imp (fun _ => trivial) (fun _ => id) fun _ _ _ => id
  | .var span name =>
    (typeVariable_step F name.text s).mono fun _ _ h =>
      h.imp (fun _ => trivial) (fun _ => id) fun _ _ _ hσ => hσ ▸ .var
  | .app span argument ctor => by
    refine (annotation_step argument s).bind fun t s₁ h₁ => ?_
    refine (constructedType_step F span argument t ctor s₁).mono fun t' s₂ h₂ => ?_
    refine h₁.next id (h₂.imp And.right (fun _ => id) fun _ _ σ h harg => ?_)
    rw [h₁.frame.typeNames σ] at h
    exact h harg
  | .array span element => by
    refine (annotation_step element s).bind fun t s₁ h₁ => ?_
    exact h₁.imp id (fun _ => Ty.live_array.mpr) fun _ _ σ h => .array h
  | .function span domain codomain => by
    refine (annotation_step domain s).bind fun param s₁ h₁ => ?_
    refine (annotation_step codomain s₁).bind fun ret s₂ h₂ => ?_
    refine h₁.next (fun h => ?_) (h₂.imp (fun h => ?_) (fun h hret => ?_) fun _ _ σ hret hparam => ?_)
    · exact (Bool.and_eq_true_iff.mp h).1
    · exact (Bool.and_eq_true_iff.mp h.1).2
    · exact Ty.live_function.mpr ⟨h₂.frame.live h.2, hret⟩
    · exact .function hparam (h₁.frame.typeNames σ ▸ hret)
  | .tuple span items => by
    refine (annotations_step items s).bind fun ts s₁ h₁ => ?_
    exact h₁.imp id (fun _ h => Ty.live_tuple.mpr h) fun _ _ σ h =>
      .tuple (Ty.substAll_eq σ.type ts ▸ h)
  | .error span => .done nofun nofun

theorem annotations_step (written : List TypeExpr) (s : CheckerState) :
    (annotations written).Yields s fun ts s' =>
      Step F [] s s' (TypeExpr.areWhole written = true) (∀ t ∈ ts, t.Live F s'.store.size) fun σ =>
        DenoteAll (s.typeNames σ) written (ts.map (Ty.subst σ.type)) :=
  match written with
  | [] => .done (fun _ => nofun) fun _ _ => .nil
  | w :: written => by
    refine (annotation_step w s).bind fun t s₁ h₁ => ?_
    refine (annotations_step written s₁).bind fun ts s₂ h₂ => ?_
    refine h₁.next (fun h => ?_) (h₂.imp (fun h => ?_) (fun h hts => ?_) fun _ _ σ hts ht => ?_)
    · exact (Bool.and_eq_true_iff.mp h).1
    · exact (Bool.and_eq_true_iff.mp h.1).2
    · exact List.forall_mem_cons.mpr ⟨h₂.frame.live h.2, hts⟩
    · exact .cons ht (h₁.frame.typeNames σ ▸ hts)

end

/-! Patterns -/

theorem bind_step (name : Ident) (scheme : Scheme) (params : List String) (visible : Span)
    (ofModule : Bool) (s : CheckerState) :
    (bind name scheme params visible ofModule).Yields s fun i s' =>
      Step F [i] s s' (scheme.Live F s.store.size) (s'.Binds F [i] [(name.text, scheme)]) fun _ =>
        True := by
  simp only [Checker.bind, yields_bind, yields_get, yields_set, yields_pure]
  generalize hbinder : Binder.mk _ name.text scheme params name.span false = binder
  have hpush (i : Nat) : (s.binders.push binder)[i]? = if i = s.binders.size then some binder else
      s.binders[i]? := Array.getElem?_push
  refine (declare_step F name.span (.binder s.binders.size) _).mono fun _ s' hdeclare => ?_
  have hbound : Step F [s.binders.size] s
      { s with
        binders := s.binders.push binder
        scope.binders := s.binders.size :: s.scope.binders
        records.visible := (visible, s.binders.size) :: s.records.visible }
      (scheme.Live F s.store.size) True fun _ => True := by
    refine ⟨⟨Nat.le_refl _, Nat.le_refl _, rfl, rfl, rfl, fun _ _ h => h, fun i b hb => ?_, ?_⟩,
      fun hscheme _ hs => ⟨?_, ⟨.refl F _, fun i b hi hb => ?_, fun _ h => .inl h, fun _ h => .inl h,
        fun _ h => .inl h⟩, trivial, fun _ _ => trivial⟩⟩
    · refine ⟨b, ?_, rfl, rfl⟩
      rw [hpush, if_neg, hb]
      rintro rfl
      simp at hb
    · simp
    · exact ⟨hs.frozen, hs.closed, hs.typeVars, hs.abbreviations, hs.constructors⟩
    · rw [hpush] at hb
      split at hb
      · obtain rfl : binder = b := Option.some.inj hb
        exact hbinder ▸ hscheme
      · rw [Array.getElem?_eq_none hi] at hb
        cases hb
  refine hbound.next id (hdeclare.imp (fun _ => trivial) (fun h _ => ?_) fun _ _ _ _ _ => trivial)
  refine hdeclare.frame.binds ⟨.cons ⟨binder, ?_, ?_⟩ .nil, List.forall_mem_singleton.mpr h.1⟩
  · rw [hpush, if_pos rfl]
  · rw [← hbinder]

theorem freshAll_step (ps : List Pattern) (s : CheckerState) :
    (freshAll ps).Yields s fun ts s' =>
      Step F [] s s' True (ts.length = ps.length ∧ ∀ t ∈ ts, t.Live F s'.store.size) fun _ => True := by
  induction ps generalizing s with
  | nil => exact .done (fun _ => ⟨rfl, nofun⟩) fun _ _ => trivial
  | cons p ps ih =>
    refine (fresh_step F s).bind fun t s₁ h₁ => ?_
    refine (ih s₁).bind fun ts s₂ h₂ => ?_
    refine h₁.next id (h₂.imp (fun _ => trivial) (fun h hts => ?_) fun _ _ _ _ _ => trivial)
    exact ⟨congrArg Nat.succ hts.1, List.forall_mem_cons.mpr ⟨h₂.frame.live h.2, hts.2⟩⟩

/-- The new binders of a pattern have the types that the pattern gives them. -/
def BindsPattern (F : Nat → Prop) (s s' : CheckerState) (bound : List Nat) (names : List Ident)
    (pre : Prop) (typing : Solution → Environment → Prop) : Prop :=
  ∃ Γ : Environment, Γ.IsMono ∧ Γ.map (·.1) = names.map (·.text) ∧
    Step F bound s s' pre (s'.Binds F bound Γ) fun σ => typing σ (Γ.under σ)

mutual

theorem bindPattern_step (visible : Span) (ofModule : Bool) (p : Pattern) (t : Ty) (s : CheckerState) :
    (bindPattern visible ofModule p t).Yields s fun bound s' =>
      BindsPattern F s s' bound p.boundNames (p.isWhole = true ∧ t.Live F s.store.size) fun σ =>
        HasPattern (s.typeNames σ) p (t.subst σ.type) :=
  match p with
  | .named span name => by
    refine (bind_step F name (.mono t) [] visible ofModule s).bind fun i s₁ h₁ => ?_
    refine ⟨[(name.text, .mono t)], by simp [Environment.IsMono, Scheme.mono], rfl,
      h₁.imp (fun h => Scheme.live_mono h.2) (fun _ => id) ?_⟩
    intro _ _ σ _
    simpa using .named
  | .wildcard _ => ⟨[], nofun, rfl, .done (fun _ => .nil F s) fun _ _ => .wildcard⟩
  | .error _ => ⟨[], nofun, rfl, .done nofun nofun⟩
  | .unit span => by
    refine (expect_step F .unit t span s).bind fun _ s₁ h₁ => ⟨[], nofun, rfl, ?_⟩
    refine h₁.imp (fun h => ⟨Ty.live_unit, h.2⟩) (fun _ _ => .nil F s₁) fun _ _ σ heq => ?_
    change HasPattern (s.typeNames σ) (.unit span) (t.subst σ.type) []
    rw [← heq]
    exact .unit
  | .tuple span items => by
    refine (freshAll_step F items s).bind fun ts s₁ h₁ => ?_
    refine (expect_step F (.tuple ts) t span s₁).bind fun _ s₂ h₂ => ?_
    refine (bindPatterns_step visible ofModule items ts s₂).mono fun bound s₃ h₃ => ?_
    obtain ⟨Γ, hmono, hnames, h₃⟩ := h₃
    refine ⟨Γ, hmono, hnames, h₁.next (fun _ => trivial) (h₂.next (fun h => ?_) (h₃.imp (fun h => ?_) ?_ ?_))⟩
    · exact ⟨Ty.live_tuple.mpr h.2.2, h₁.frame.live h.1.2⟩
    · exact ⟨h.1.1.1, h.1.2.1, fun u hu => h₂.frame.live (h.1.2.2 u hu)⟩
    · exact fun _ => id
    · intro _ _ σ hitems heq _
      rw [h₂.frame.typeNames, h₁.frame.typeNames] at hitems
      rw [← heq, Ty.subst, Ty.substAll_eq]
      exact .tuple hitems
  | .typed span inner written => by
    refine (annotation_step F written s).bind fun u s₁ h₁ => ?_
    refine (expect_step F u t span s₁).bind fun _ s₂ h₂ => ?_
    refine (bindPattern_step visible ofModule inner u s₂).mono fun bound s₃ h₃ => ?_
    obtain ⟨Γ, hmono, hnames, h₃⟩ := h₃
    refine ⟨Γ, hmono, hnames, h₁.next (fun h => ?_) (h₂.next (fun h => ?_) (h₃.imp (fun h => ?_) ?_ ?_))⟩
    · exact (Bool.and_eq_true_iff.mp h.1).2
    · exact ⟨h.2, h₁.frame.live h.1.2⟩
    · exact ⟨(Bool.and_eq_true_iff.mp h.1.1.1).1, h₂.frame.live h.1.2⟩
    · exact fun _ => id
    · intro _ _ σ hinner heq hu
      rw [h₂.frame.typeNames, h₁.frame.typeNames] at hinner
      rw [← heq]
      exact .typed hu hinner

theorem bindPatterns_step (visible : Span) (ofModule : Bool) (ps : List Pattern) (ts : List Ty)
    (s : CheckerState) :
    (bindPatterns visible ofModule ps ts).Yields s fun bound s' =>
      BindsPattern F s s' bound (Pattern.boundNamesOfAll ps)
        (Pattern.areWhole ps = true ∧ ts.length = ps.length ∧ ∀ t ∈ ts, t.Live F s.store.size) fun σ =>
          HasPatterns (s.typeNames σ) ps (ts.map (Ty.subst σ.type)) :=
  match ps, ts with
  | [], [] => ⟨[], nofun, rfl, .done (fun _ => .nil F s) fun _ _ => .nil⟩
  | [], _ :: _ => ⟨[], nofun, rfl, .done nofun nofun⟩
  | p :: ps, [] => by
    refine ⟨(Pattern.boundNamesOfAll (p :: ps)).map fun name => (name.text, .mono .unit), ?_, ?_,
      .done nofun nofun⟩
    · simp [Environment.IsMono, Scheme.mono]
    · simp
  | p :: ps, t :: ts => by
    refine (bindPattern_step visible ofModule p t s).bind fun first s₁ h₁ => ?_
    refine (bindPatterns_step visible ofModule ps ts s₁).bind fun rest s₂ h₂ => ?_
    obtain ⟨Γ, hmono, hnames, h₁⟩ := h₁
    obtain ⟨Γ', hmono', hnames', h₂⟩ := h₂
    refine ⟨Γ ++ Γ', hmono.append hmono', by simp [Pattern.boundNamesOfAll, hnames, hnames'],
      h₁.next (fun h => ?_) (h₂.imp (fun h => ?_) (fun h hΓ' => ?_) ?_)⟩
    · exact ⟨(Bool.and_eq_true_iff.mp h.1).1, h.2.2 t (by simp)⟩
    · exact ⟨(Bool.and_eq_true_iff.mp h.1.1).2, Nat.succ.inj h.1.2.1, fun u hu =>
        h₁.frame.live (h.1.2.2 u (by simp [hu]))⟩
    · exact (h₂.frame.binds h.2).append hΓ'
    · intro _ _ σ hrest hfirst
      rw [h₁.frame.typeNames] at hrest
      rw [Environment.under_append]
      exact .cons hfirst hrest

end

/-- The new binders of parameters have the types that the patterns give them. -/
def BindsParams (F : Nat → Prop) (s s' : CheckerState) (ps : List Pattern) (expected : Option Ty)
    (r : List Ty × Option Ty) : Prop :=
  ∃ bound, ∃ Γ : Environment, Γ.IsMono ∧
    Γ.map (·.1) = (Pattern.boundNamesOfAll ps).map (·.text) ∧
    Step F bound s s' (Pattern.areWhole ps = true ∧ ∀ t ∈ expected, t.Live F s.store.size)
      ((∀ t ∈ r.1, t.Live F s'.store.size) ∧ (∀ t ∈ r.2, t.Live F s'.store.size) ∧
        s'.Binds F bound Γ) fun σ =>
      HasPatterns (s.typeNames σ) ps (r.1.map (Ty.subst σ.type)) (Γ.under σ)

theorem bindParams_step (visible : Span) (ps : List Pattern) (expected : Option Ty)
    (s : CheckerState) :
    (bindParams visible ps expected).Yields s fun r s' => BindsParams F s s' ps expected r := by
  induction ps generalizing expected s with
  | nil => exact ⟨[], [], by rintro _ ⟨⟩, rfl, .done (fun h => ⟨by rintro _ ⟨⟩, h.2, .nil F s⟩) fun _ _ => .nil⟩
  | cons p ps ih =>
    have rest (t : Ty) (result? : Option Ty) (s₁ : CheckerState)
        (h₁ : Step F [] s s₁ (∀ t ∈ expected, t.Live F s.store.size)
          (t.Live F s₁.store.size ∧ ∀ t ∈ result?, t.Live F s₁.store.size) fun _ => True) :
        (bindParamsFrom visible p ps t result?).Yields s₁ fun r s' =>
          BindsParams F s s' (p :: ps) expected r := by
      refine (bindPattern_step F visible false p t s₁).bind fun bound s₂ h₂ => ?_
      refine (ih result? s₂).bind fun r s₃ h₃ => ?_
      obtain ⟨Γ, hmono, hnames, h₂⟩ := h₂
      obtain ⟨bound', Γ', hmono', hnames', h₃⟩ := h₃
      refine ⟨bound ++ bound', Γ ++ Γ', hmono.append hmono',
        by simp [Pattern.boundNamesOfAll, hnames, hnames'], h₁.next And.right (h₂.next (fun h => ?_)
        (h₃.imp (fun h => ?_) (fun h hr => ⟨?_, hr.2.1, ?_⟩) ?_))⟩
      · exact ⟨(Bool.and_eq_true_iff.mp h.1.1).1, h.2.1⟩
      · exact ⟨(Bool.and_eq_true_iff.mp h.1.1.1).2, fun u hu => h₂.frame.live (h.1.2.2 u hu)⟩
      · exact List.forall_mem_cons.mpr ⟨h₃.frame.live (h₂.frame.live h.1.2.1), hr.1⟩
      · exact (h₃.frame.binds h.2).append hr.2.2
      · intro _ _ σ hrest hfirst _
        rw [h₂.frame.typeNames, h₁.frame.typeNames] at hrest
        rw [h₁.frame.typeNames] at hfirst
        rw [Environment.under_append]
        exact .cons hfirst hrest
    unfold bindParams
    split
    case h_1 param ret =>
      refine rest param (some (s.store.shallow ret)) s (.here fun h hs => ⟨?_, fun _ _ => trivial⟩)
      obtain ⟨hparam, hret⟩ := Ty.live_function.mp (h _ rfl)
      refine ⟨hparam, fun t ht => ?_⟩
      obtain rfl := Option.some.inj ht
      exact TypeStore.live_shallow hs.closed hret
    case h_2 =>
      refine (fresh_step F s).bind fun t s₁ h₁ => rest t none s₁ ?_
      exact h₁.imp (fun _ => trivial) (fun _ h => ⟨h, by simp⟩) fun _ _ _ => id

end Checker
end ScriptAnalyzer

import ScriptAnalyzer.Proofs.Syntax.ErrorNodes
import ScriptAnalyzer.Proofs.Typing.Results

/-!
When generalizing a binding is sound. A scheme quantifies every variable of its type, also one that is
free in a type that the checker still holds; such a variable can be bound later. If there is none, the
quantified variables stay as they are and every use of the binding has an instance of its final type.
-/

namespace ScriptAnalyzer

open TypeStore (Closed Develops)

variable {F : Nat → Prop} {k : Nat}

/-! Free variables -/

def Scheme.freeVars (scheme : Scheme) : List Nat :=
  scheme.type.vars.filter fun v => !scheme.vars.contains v

theorem Scheme.mem_freeVars {scheme : Scheme} {v : Nat} :
    v ∈ scheme.freeVars ↔ v ∈ scheme.type.vars ∧ v ∉ scheme.vars := by
  simp [freeVars]

def Overload.vars (o : Overload) : List Nat := o.params.flatMap (·.type.vars) ++ o.returnType.vars

def MemberKind.freeVars : MemberKind → List Nat
  | .value scheme _ => scheme.freeVars
  | .method _ overloads => overloads.flatMap (·.vars)
  | .property _ t | .field t => t.vars

def Entity.freeVars (e : Entity) : List Nat :=
  e.members.flatMap (·.kind.freeVars) ++ e.constructors.flatMap (·.vars)

/-- The variables that are free in the types that the rest of a file may refer to. -/
def CheckerState.freeVars (s : CheckerState) : List Nat :=
  s.typeVars.flatMap (·.2.vars) ++ s.abbreviations.flatMap (·.2.vars) ++
    s.scope.binders.flatMap (fun i => s.binders[i]?.elim [] (·.scheme.freeVars)) ++
    s.entities.all.flatMap (·.freeVars)

theorem Ty.live_iff {t : Ty} :
    t.Live F k ↔ t.hasError = false ∧ ∀ v ∈ t.vars, v < k ∧ ¬F v :=
  ⟨fun h => ⟨h.errorFree, h.vars⟩, fun h => ⟨h.1, h.2⟩⟩

theorem Scheme.live_iff {scheme : Scheme} :
    scheme.Live F k ↔ scheme.type.hasError = false ∧ ∀ v ∈ scheme.freeVars, v < k ∧ ¬F v := by
  refine ⟨fun h => ⟨h.errorFree, fun v hv => ?_⟩, fun h => ⟨h.1, fun v hv => ?_⟩⟩
  · obtain ⟨hv, hfree⟩ := mem_freeVars.mp hv
    exact (h.vars v hv).resolve_left hfree
  · by_cases hquantified : v ∈ scheme.vars
    · exact .inl hquantified
    · exact .inr (h.2 v (mem_freeVars.mpr ⟨hv, hquantified⟩))

theorem Overload.live_iff {o : Overload} :
    o.Live F k ↔ o.ErrorFree ∧ ∀ v ∈ o.vars, v < k ∧ ¬F v := by
  constructor
  · intro h
    refine ⟨h.errorFree, fun v hv => ?_⟩
    rcases List.mem_append.mp hv with hv | hv
    · obtain ⟨p, hp, hv⟩ := List.mem_flatMap.mp hv
      exact (h.params p hp).vars v hv
    · exact h.returnType.vars v hv
  · rintro ⟨herror, hvars⟩
    refine ⟨fun p hp => ⟨herror.1 p hp, fun v hv => hvars v ?_⟩, herror.2, fun v hv => hvars v ?_⟩
    · exact List.mem_append_left _ (List.mem_flatMap.mpr ⟨p, hp, hv⟩)
    · exact List.mem_append_right _ hv

theorem MemberKind.live_iff {m : MemberKind} :
    m.Live F k ↔ m.ErrorFree ∧ ∀ v ∈ m.freeVars, v < k ∧ ¬F v := by
  cases m with
  | value scheme params => exact Scheme.live_iff
  | method isStatic overloads =>
    simp only [MemberKind.Live, Overload.live_iff, ErrorFree, freeVars, List.mem_flatMap]
    refine ⟨fun h => ⟨fun o ho => (h o ho).1, ?_⟩, fun h o ho => ⟨h.1 o ho, fun v hv => h.2 v ⟨o, ho, hv⟩⟩⟩
    rintro v ⟨o, ho, hv⟩
    exact (h o ho).2 v hv
  | property isStatic t => exact Ty.live_iff
  | field t => exact Ty.live_iff

namespace CheckerState

variable {s s₁ s' : CheckerState}

theorem freeVars_live (hs : s.Sane F) (hl : s.Lucid F) {w : Nat} (hw : w ∈ s.freeVars) :
    w < s.store.size ∧ ¬F w := by
  simp only [freeVars, Entity.freeVars, List.mem_append, List.mem_flatMap] at hw
  rcases hw with ((⟨entry, hentry, hw⟩ | ⟨entry, hentry, hw⟩) | ⟨i, hi, hw⟩) | ⟨e, he, hw⟩
  · exact (hs.typeVars entry hentry).vars w hw
  · exact (hs.abbreviations entry hentry).vars w hw
  · obtain ⟨b, hb, hlive⟩ := hl.binders i hi
    rw [hb] at hw
    exact (Scheme.live_iff.mp hlive).2 w hw
  · rcases hw with ⟨m, hm, hw⟩ | ⟨o, ho, hw⟩
    · exact (MemberKind.live_iff.mp (hl.members e he m hm)).2 w hw
    · exact (Overload.live_iff.mp (hs.constructors e he o ho)).2 w hw

/-- Variables outside `F` are all that matters of a sane and lucid state to later declarations. -/
theorem sane_lucid_of_freeVars (hs : s.Sane NoVar) (hl : s.Lucid NoVar)
    (hfrozen : ∀ v, F v → v < s.store.size) (hclosed : Closed (Ty.Live F s.store.size) s.store)
    (hfree : ∀ w ∈ s.freeVars, ¬F w) : s.Sane F ∧ s.Lucid F := by
  simp only [freeVars, Entity.freeVars, List.mem_append, List.mem_flatMap] at hfree
  refine ⟨⟨hfrozen, hclosed, fun entry h => ?_, fun entry h => ?_, fun e he o ho => ?_⟩,
    fun i hi => ?_, fun e he m hm => ?_⟩
  · obtain ⟨herror, hvars⟩ := hs.typeVars entry h
    exact ⟨herror, fun w hw => ⟨(hvars w hw).1, hfree w (.inl (.inl (.inl ⟨entry, h, hw⟩)))⟩⟩
  · obtain ⟨herror, hvars⟩ := hs.abbreviations entry h
    exact ⟨herror, fun w hw => ⟨(hvars w hw).1, hfree w (.inl (.inl (.inr ⟨entry, h, hw⟩)))⟩⟩
  · obtain ⟨herror, hvars⟩ := Overload.live_iff.mp (hs.constructors e he o ho)
    exact Overload.live_iff.mpr ⟨herror, fun w hw =>
      ⟨(hvars w hw).1, hfree w (.inr ⟨e, he, .inr ⟨o, ho, hw⟩⟩)⟩⟩
  · obtain ⟨b, hb, hlive⟩ := hl.binders i hi
    obtain ⟨herror, hvars⟩ := Scheme.live_iff.mp hlive
    refine ⟨b, hb, Scheme.live_iff.mpr ⟨herror, fun w hw => ⟨(hvars w hw).1, ?_⟩⟩⟩
    exact hfree w (.inl (.inr ⟨i, hi, by rwa [hb]⟩))
  · obtain ⟨herror, hvars⟩ := MemberKind.live_iff.mp (hl.members e he m hm)
    exact MemberKind.live_iff.mpr ⟨herror, fun w hw =>
      ⟨(hvars w hw).1, hfree w (.inr ⟨e, he, .inl ⟨m, hm, hw⟩⟩)⟩⟩

/-! Schemes apart from a state -/

/-- The quantified variables of the scheme stand for no types, and are free in no type that the rest of
the file may refer to. -/
def Apart (s : CheckerState) (scheme : Scheme) : Prop :=
  (∀ v ∈ scheme.vars, v < s.store.size ∧ s.store.binding? v = none) ∧
    ∀ w ∈ s.freeVars ++ scheme.freeVars, ∀ v ∈ scheme.vars, v ∉ (s.store.image w).vars

instance (s : CheckerState) (scheme : Scheme) : Decidable (s.Apart scheme) :=
  inferInstanceAs (Decidable (_ ∧ _))

/-- A quantified variable is free in what `w` stands for. -/
def Touches (s : CheckerState) (scheme : Scheme) (w : Nat) : Prop :=
  ∃ v ∈ scheme.vars, v ∈ (s.store.image w).vars

variable {scheme : Scheme}

theorem Apart.touches_self (h : s.Apart scheme) {v : Nat} (hv : v ∈ scheme.vars) :
    s.Touches scheme v := by
  refine ⟨v, hv, ?_⟩
  rw [TypeStore.image_free (h.1 v hv).2]
  simp [Ty.vars]

theorem Apart.touches_lt (h : s.Apart scheme) {w : Nat} (hw : s.Touches scheme w) :
    w < s.store.size := by
  obtain ⟨v, hv, hmem⟩ := hw
  cases hb : s.store.binding? w with
  | some t => exact TypeStore.lt_size_of_bound hb
  | none =>
    rw [TypeStore.image_free hb, Ty.vars, List.mem_singleton] at hmem
    exact hmem ▸ (h.1 v hv).1

theorem Apart.sane_lucid (h : s.Apart scheme) (hs : s.Sane NoVar) (hl : s.Lucid NoVar) :
    s.Sane (s.Touches scheme) ∧ s.Lucid (s.Touches scheme) := by
  refine sane_lucid_of_freeVars hs hl (fun w hw => h.touches_lt hw) ⟨hs.closed.acyclic, ?_⟩ ?_
  · intro w t hbound hlive
    obtain ⟨hlt, hw⟩ := Ty.live_var.mp hlive
    obtain ⟨herror, hvars⟩ := hs.closed.bound w t hbound (Ty.live_var.mpr ⟨hlt, id⟩)
    refine ⟨herror, fun x hx => ⟨(hvars x hx).1, fun ⟨v, hv, hmem⟩ => hw ⟨v, hv, ?_⟩⟩⟩
    exact TypeStore.mem_vars_image hs.closed.acyclic hbound hx hmem
  · rintro w hw ⟨v, hv, hmem⟩
    exact h.2 w (List.mem_append_left _ hw) v hv hmem

/-- What is apart from a state is apart from the states behind it. -/
theorem Apart.develops (h : s.Apart scheme) (hscheme : scheme.Live NoVar s.store.size)
    (hs : s'.Sane (s.Touches scheme)) (hl : s'.Lucid (s.Touches scheme))
    (hstore : Develops (s.Touches scheme) s.store s'.store) : s'.Apart scheme := by
  refine ⟨fun v hv => ?_, fun w hw v hv hmem => ?_⟩
  · have hself := h.touches_self hv
    exact ⟨hs.frozen v hself, (hstore.frozen v hself).trans (h.1 v hv).2⟩
  · have hlive : (Ty.var w).Live (s.Touches scheme) s'.store.size := by
      refine Ty.live_var.mpr ?_
      rcases List.mem_append.mp hw with hw' | hw'
      · exact freeVars_live hs hl hw'
      · have hlt := ((Scheme.live_iff.mp hscheme).2 w hw').1
        refine ⟨Nat.lt_of_lt_of_le hlt hstore.size, fun ⟨u, hu, hmem'⟩ => ?_⟩
        exact h.2 w (List.mem_append_right _ hw') u hu hmem'
    exact ((TypeStore.live_zonk hs.closed hlive).vars v hmem).2 (h.touches_self hv)

/-- Every instance of a scheme, read at a state that the scheme is apart from, is an instance of its
type there. -/
theorem Apart.exists_instance (h : s.Apart scheme) (store : TypeStore) :
    ∃ f, s.store.zonk (store.instantiate scheme).1 = (s.store.zonk scheme.type).subst f := by
  let image (v : Nat) : Ty := (scheme.vars.idxOf? v).elim (.var v) fun i => .var (store.size + i)
  let f (v : Nat) : Ty := if v ∈ scheme.vars then s.store.zonk (image v) else .var v
  refine ⟨f, ?_⟩
  have hvar (v : Nat) (hv : v ∈ scheme.type.vars) :
      s.store.zonk (image v) = (s.store.image v).subst f := by
    by_cases hquantified : v ∈ scheme.vars
    · rw [TypeStore.image_free (h.1 v hquantified).2]
      exact (if_pos hquantified).symm
    · have hfree (q : Nat) (hq : q ∈ (s.store.image v).vars) : f q = .var q :=
        if_neg fun hmem => h.2 v
          (List.mem_append_right _ (Scheme.mem_freeVars.mpr ⟨hv, hquantified⟩)) q hmem hq
      have himage : image v = .var v := by simp [image, List.idxOf?_eq_none_iff.mpr hquantified]
      rw [himage, Ty.subst_congr hfree, Ty.subst_var]
      rfl
  calc s.store.zonk (scheme.type.subst image)
      = scheme.type.subst fun v => (image v).subst s.store.image := by
        rw [TypeStore.zonk_eq_subst, Ty.subst_subst]
    _ = scheme.type.subst fun v => (s.store.image v).subst f :=
        Ty.subst_congr fun v hv => (TypeStore.zonk_eq_subst _ _).symm.trans (hvar v hv)
    _ = (s.store.zonk scheme.type).subst f := by
        rw [TypeStore.zonk_eq_subst, Ty.subst_subst]

end CheckerState

/-! The states between the declarations of a file -/

/-- What checking the rest of a file does, leaving open what is in scope in the end. -/
structure Continues (F : Nat → Prop) (s s' : CheckerState) : Prop where
  alarms : s.alarms ≤ s'.alarms
  size : s.store.size ≤ s'.store.size
  binders : ∀ (i : Nat) (b : Binder), s.binders[i]? = some b →
    ∃ b', s'.binders[i]? = some b' ∧ b'.scheme = b.scheme
  calm : s'.alarms ≤ s.alarms → s.Sane F → s.Lucid F →
    s'.Sane F ∧ s'.Lucid F ∧ Develops F s.store s'.store

namespace Continues

variable {s₀ s s₁ s' : CheckerState}

theorem of_advance (h : Advance F s s' True True) : Continues F s s' :=
  ⟨h.alarms, h.size, h.binders, fun hquiet hs hl =>
    have ⟨hs', hl', hlater, _⟩ := h.calm trivial hquiet hs hl
    ⟨hs', hl', hlater.store⟩⟩

theorem trans (h : Continues F s s₁) (h' : Continues F s₁ s') : Continues F s s' where
  alarms := h.alarms.trans h'.alarms
  size := h.size.trans h'.size
  binders i b hb := by
    obtain ⟨b₁, hb₁, hscheme₁⟩ := h.binders i b hb
    obtain ⟨b', hb', hscheme⟩ := h'.binders i b₁ hb₁
    exact ⟨b', hb', hscheme.trans hscheme₁⟩
  calm hquiet hs hl := by
    obtain ⟨hs₁, hl₁, hstore⟩ := h.calm (h'.alarms.trans hquiet) hs hl
    obtain ⟨hs', hl', hstore'⟩ := h'.calm (hquiet.trans h.alarms) hs₁ hl₁
    exact ⟨hs', hl', hstore.trans hstore'⟩

/-- A module is left for a scope that was in scope inside. -/
theorem leave (h : Continues F s s') (hscope : s₀.scope.binders ⊆ s.scope.binders) :
    Continues F s { s' with scope := s₀.scope } := by
  refine ⟨h.alarms, h.size, h.binders, fun hquiet hs hl => ?_⟩
  obtain ⟨hs', hl', hstore⟩ := h.calm hquiet hs hl
  refine ⟨⟨hs'.frozen, hs'.closed, hs'.typeVars, hs'.abbreviations, hs'.constructors⟩,
    ⟨fun i hi => ?_, hl'.members⟩, hstore⟩
  obtain ⟨b, hb, hlive⟩ := hl.binders i (hscope hi)
  obtain ⟨b', hb', hscheme⟩ := h.binders i b hb
  exact ⟨b', hb', hscheme ▸ hlive.mono h.size⟩

end Continues

/-- In front of a binding or a type the type variables written so far are forgotten. -/
def Decl.forgetsTypeVars : Decl → Bool
  | .binding _ _ | .type _ _ _ => true
  | _ => false

namespace Checker

/-- Checking the declarations from the first state on passes through the second one, in front of, between
or behind them or those of a module among them. -/
inductive Passes (kind : SourceKind) :
    Nat → List Decl → List String → CheckerState → CheckerState → Prop
  | here {stop : Nat} {ds : List Decl} {declared : List String} {s : CheckerState} :
    Passes kind stop ds declared s s
  | forget {stop : Nat} {d : Decl} {ds : List Decl} {declared : List String} {s : CheckerState}
    (h : d.forgetsTypeVars = true) : Passes kind stop (d :: ds) declared s { s with typeVars := [] }
  | behind {stop : Nat} {d : Decl} {ds : List Decl} {declared : List String} {s s' : CheckerState}
    (h : Passes kind stop ds ((decl kind stop d declared).run s).1
      ((decl kind stop d declared).run s).2 s') : Passes kind stop (d :: ds) declared s s'
  | inside {stop : Nat} {span : Span} {name : Ident} {members ds : List Decl} {declared : List String}
    {s s' : CheckerState}
    (h : Passes kind span.stop members []
      ((enterModule (s.qualified name.text) (some name.span) span).run s).2 s') :
    Passes kind stop (.module span name members :: ds) declared s s'

theorem decl_forgets (kind : SourceKind) (stop : Nat) {d : Decl} (h : d.forgetsTypeVars = true)
    (declared : List String) (s : CheckerState) :
    (decl kind stop d declared).run { s with typeVars := [] } = (decl kind stop d declared).run s := by
  cases d with
  | binding => rfl
  | type => rfl
  | _ => cases h

variable {kind : SourceKind} {stop : Nat} {ds : List Decl} {declared : List String}
  {s s₁ : CheckerState}

theorem Passes.advance (F : Nat → Prop) (h : Passes kind stop ds declared s s₁)
    (hwhole : Decl.areWhole ds = true) : Advance F s s₁ True True := by
  induction h with
  | here => exact .here fun _ _ _ => trivial
  | forget => exact .of_types fun _ hs => ⟨nofun, hs.abbreviations⟩
  | @behind stop d ds declared s s' _ ih =>
    obtain ⟨hd, hds⟩ := Bool.and_eq_true_iff.mp hwhole
    exact (decl_advance F kind stop d hd declared s).next id ((ih hds).imp (fun _ => trivial) fun _ => id)
  | @inside stop span name members ds declared s s' _ ih =>
    obtain ⟨hmembers, -⟩ := Bool.and_eq_true_iff.mp hwhole
    exact (enterModule_advance F (s.qualified name.text) (some name.span) span s).next id
      ((ih hmembers).imp (fun _ => trivial) fun _ => id)

theorem Passes.continues (F : Nat → Prop) (h : Passes kind stop ds declared s s₁)
    (hwhole : Decl.areWhole ds = true) :
    (decls kind stop ds declared).Yields s fun _ s' => Continues F s₁ s' := by
  induction h with
  | @here stop ds declared s => exact .of_advance (decls_advance F kind stop ds hwhole declared s)
  | @forget stop d ds declared s hforgets =>
    have h := decls_advance F kind stop (d :: ds) hwhole declared { s with typeVars := [] }
    have heq : (decls kind stop (d :: ds) declared).run { s with typeVars := [] } =
        (decls kind stop (d :: ds) declared).run s :=
      congrArg (fun r : List String × CheckerState => (decls kind stop ds r.1).run r.2)
        (decl_forgets kind stop hforgets declared s)
    exact .of_advance (heq ▸ h)
  | @behind stop d ds declared s s' _ ih =>
    obtain ⟨-, hds⟩ := Bool.and_eq_true_iff.mp hwhole
    exact ih hds
  | @inside stop span name members ds declared s s' hinside ih =>
    obtain ⟨hmembers, hds⟩ := Bool.and_eq_true_iff.mp hwhole
    have henter := enterModule_advance F (s.qualified name.text) (some name.span) span s
    have hscope : s.scope.binders ⊆ s'.scope.binders := fun _ hi =>
      (hinside.advance F hmembers).scope (henter.scope hi)
    have hmodule : (decl kind stop (.module span name members) declared).Yields s fun _ s₂ =>
        Continues F s' s₂ := (ih hmembers).leave hscope
    refine hmodule.bind fun declared s₂ h₂ => ?_
    exact (decls_advance F kind stop ds hds declared s₂).mono fun _ s₃ h₃ => h₂.trans (.of_advance h₃)

theorem passes_take (kind : SourceKind) (stop : Nat) (ds : List Decl) (n : Nat)
    (declared : List String) (s : CheckerState) :
    Passes kind stop ds declared s ((decls kind stop (ds.take n) declared).run s).2 := by
  induction ds generalizing n declared s with
  | nil =>
    rw [List.take_nil]
    exact .here
  | cons d ds ih =>
    cases n with
    | zero => exact .here
    | succ n => exact .behind (ih n _ _)

end Checker

namespace SyntaxFile

/-- The state in front of the first declaration. -/
def startState (f : SyntaxFile) (context : Context) : CheckerState :=
  ((Checker.prelude f context).run (CheckerState.initial context.libraryNames)).2

/-- Checking the file passes through this state between declarations. -/
def Passes (f : SyntaxFile) (context : Context) : CheckerState → Prop :=
  Checker.Passes f.kind f.text.byteSize f.decls [] (f.startState context)

variable (f : SyntaxFile) (context : Context)

/-- Behind a state that a scheme is apart from, the scheme stays apart from what is checked. -/
theorem apart_endState (hwhole : Decl.areWhole f.decls = true)
    (hquiet : (f.endState context).alarms = 0) {s : CheckerState} (hpasses : f.Passes context s)
    {i : Nat} {b : Binder} (hb : s.binders[i]? = some b) (hapart : s.Apart b.scheme) :
    (∃ b', (f.endState context).binders[i]? = some b' ∧ b'.scheme = b.scheme) ∧
      (f.endState context).Apart b.scheme := by
  obtain ⟨hs₀, hl₀⟩ := CheckerState.sane_initial NoVar (fun _ => id) context.libraryNames
  have hstart : Advance NoVar (CheckerState.initial context.libraryNames) s True True :=
    (Checker.prelude_advance NoVar f context _).next id
      ((hpasses.advance NoVar hwhole).imp (fun _ => trivial) fun _ => id)
  have hrest : Continues (s.Touches b.scheme) s (f.endState context) := by
    have h := hpasses.continues (s.Touches b.scheme) hwhole
    rw [endState, Checker.file_eq]
    exact h
  have hcalm : s.alarms = 0 := Nat.le_zero.mp (hquiet ▸ hrest.alarms)
  obtain ⟨hs, hl, hlater, -⟩ := hstart.calm trivial (hcalm ▸ Nat.zero_le _) hs₀ hl₀
  obtain ⟨hsF, hlF⟩ := hapart.sane_lucid hs hl
  obtain ⟨hs', hl', hstore⟩ := hrest.calm (hquiet ▸ Nat.zero_le _) hsF hlF
  exact ⟨hrest.binders i b hb,
    hapart.develops (hlater.binders i b (Nat.zero_le i) hb) hs' hl' hstore⟩

end SyntaxFile

/-- In a program without errors, a binding whose quantified variables are apart from what the checker
still holds keeps them to the end: no later unification binds them, they get free in no binding that
stays monomorphic, and each use has an instance of the final type. -/
theorem checkText_generalization_sound (path : Path) (text : Text) (project : ProjectOptions)
    (options : Option WarningOptions)
    (hclean : (checkText path text project options).hasErrors = false)
    {s : CheckerState} {i : Nat} {b : Binder}
    (hpasses : (checkText path text project options).file.Passes
      (checkText path text project options).context s)
    (hb : s.binders[i]? = some b) (hapart : s.Apart b.scheme) :
    let final := (checkText path text project options).file.endState
      (checkText path text project options).context
    (∃ b', final.binders[i]? = some b' ∧ b'.scheme = b.scheme) ∧ final.Apart b.scheme ∧
      ∀ store : TypeStore, ∃ f,
        final.store.zonk (store.instantiate b.scheme).1 = (final.store.zonk b.scheme.type).subst f := by
  obtain ⟨hread, hchecked⟩ := Bool.or_eq_false_iff.mp hclean
  have hnone : (checkText path text project options).file.errors = [] := by
    simpa [SyntaxFile.hasErrors] using hread
  have hwhole : Decl.areWhole (checkText path text project options).file.decls = true :=
    SyntaxFile.parse_areWhole path text _ _ hnone
  have hquiet : ∀ d ∈ (checkText path text project options).diagnostics, d.isTypeError = false := by
    intro d hd
    have herror := List.any_eq_false.mp hchecked d hd
    simp [Diagnostic.isTypeError, herror]
  have halarms := SyntaxFile.alarms_endState _ _ _ hquiet
  obtain ⟨hkept, hfinal⟩ := SyntaxFile.apart_endState _ _ hwhole halarms hpasses hb hapart
  exact ⟨hkept, hfinal, hfinal.exists_instance⟩

/-- A function that is used with two types. -/
theorem identity_generalization_sound :
    let r := checkText ⟨"identity.glx"⟩ "let id x = x\nlet a = id 1\nlet b = id true".toList {} none
    let final := r.file.endState r.context
    ∃ b : Binder, b.simpleName = "id" ∧ b.scheme.vars = [1] ∧ final.Apart b.scheme := by
  intro r final
  let s := ((Checker.decls r.file.kind r.file.text.byteSize (r.file.decls.take 1) []).run
    (r.file.startState r.context)).2
  have hshown : s.binders[1]?.map (fun b => (b.simpleName, b.scheme)) =
      some ("id", ⟨[1], .function (.var 1) (.var 1)⟩) := by decide +kernel
  obtain ⟨b, hb, heq⟩ := Option.map_eq_some_iff.mp hshown
  obtain ⟨hname, hscheme⟩ := Prod.mk.inj heq
  have hapart : s.Apart b.scheme := by
    rw [hscheme]
    decide +kernel
  have hsound := checkText_generalization_sound ⟨"identity.glx"⟩
    "let id x = x\nlet a = id 1\nlet b = id true".toList {} none (by decide +kernel)
    (Checker.passes_take _ _ _ 1 _ _) hb hapart
  exact ⟨b, hname, by rw [hscheme], hsound.2.1⟩

/-- A function that returns a list whose type is still open. The first use makes it a list of strings,
then the list is summed up. -/
theorem sharedList_quantified_bound :
    let r := checkText ⟨"shared.glx"⟩
      "let x = []\nlet f () = x\nlet a : string list = f ()\nlet b = List.sum x".toList {} none
    let final := r.file.endState r.context
    r.hasErrors = false ∧ final.store.binding? 0 = some .int ∧
      ∃ f a : Binder, final.binders[1]? = some f ∧ final.binders[2]? = some a ∧
        f.simpleName = "f" ∧ a.simpleName = "a" ∧ 0 ∈ f.scheme.vars ∧
        ∀ g, (final.store.zonk f.scheme.type).subst g ≠
          .function .unit (final.store.zonk a.scheme.type) := by
  intro r final
  let shown (b : Binder) := (b.simpleName, b.scheme.vars, final.store.zonk b.scheme.type)
  have hf : final.binders[1]?.map shown = some ("f", [0], .function .unit (.list .int)) := by
    decide +kernel
  have ha : final.binders[2]?.map shown = some ("a", [], .list .string) := by decide +kernel
  obtain ⟨f, hf, hfshown⟩ := Option.map_eq_some_iff.mp hf
  obtain ⟨a, ha, hashown⟩ := Option.map_eq_some_iff.mp ha
  simp only [shown, Prod.mk.injEq] at hfshown hashown
  refine ⟨by decide +kernel, by decide +kernel, f, a, hf, ha, hfshown.1, hashown.1, ?_, fun g heq => ?_⟩
  · simp [hfshown.2.1]
  · rw [hfshown.2.2, hashown.2.2] at heq
    simp [Ty.list, Ty.unit, Ty.int, Ty.string, Ty.atom, Ty.subst, Ty.substAll] at heq

end ScriptAnalyzer

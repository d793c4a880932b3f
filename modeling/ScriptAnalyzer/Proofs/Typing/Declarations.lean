import ScriptAnalyzer.Typing.Check
import ScriptAnalyzer.Proofs.Typing.Flow

/-!
Declarations without error nodes, checked without an error, keep the state sane and lucid.
-/

namespace ScriptAnalyzer

open CheckerState

variable {F : Nat → Prop}

/-- What checking declarations does: nothing to what was bound before, and, if it reports no error,
nothing to a sane and lucid state but adding live types. -/
structure Advance (F : Nat → Prop) (s s' : CheckerState) (pre post : Prop) : Prop where
  alarms : s.alarms ≤ s'.alarms
  size : s.store.size ≤ s'.store.size
  scope : s.scope.binders ⊆ s'.scope.binders
  binders : ∀ (i : Nat) (b : Binder), s.binders[i]? = some b →
    ∃ b', s'.binders[i]? = some b' ∧ b'.scheme = b.scheme
  calm : pre → s'.alarms ≤ s.alarms → s.Sane F → s.Lucid F →
    s'.Sane F ∧ s'.Lucid F ∧ s.Later F s' ∧ post

namespace Advance

variable {s s₁ s' : CheckerState} {pre pre' post post' : Prop}

theorem here (h : pre → s.Sane F → s.Lucid F → post) : Advance F s s pre post :=
  ⟨Nat.le_refl _, Nat.le_refl _, fun _ h => h, fun _ b h => ⟨b, h, rfl⟩,
    fun hpre _ hs hl => ⟨hs, hl, .refl F s, h hpre hs hl⟩⟩

theorem next (h : Advance F s s₁ pre' post') (hpre : pre → pre')
    (h' : Advance F s₁ s' (pre ∧ post') post) : Advance F s s' pre post where
  alarms := h.alarms.trans h'.alarms
  size := h.size.trans h'.size
  scope := fun _ hi => h'.scope (h.scope hi)
  binders i b hb := by
    obtain ⟨b₁, hb₁, hscheme₁⟩ := h.binders i b hb
    obtain ⟨b', hb', hscheme⟩ := h'.binders i b₁ hb₁
    exact ⟨b', hb', hscheme.trans hscheme₁⟩
  calm hp hquiet hs hl := by
    obtain ⟨hs₁, hl₁, hlater, hpost⟩ := h.calm (hpre hp) (h'.alarms.trans hquiet) hs hl
    obtain ⟨hs', hl', hlater', hpost'⟩ := h'.calm ⟨hp, hpost⟩ (hquiet.trans h.alarms) hs₁ hl₁
    exact ⟨hs', hl', hlater.trans hlater' h'.binders, hpost'⟩

theorem imp (h : Advance F s s' pre' post') (hpre : pre → pre') (hpost : pre → post' → post) :
    Advance F s s' pre post :=
  ⟨h.alarms, h.size, h.scope, h.binders, fun hp hquiet hs hl =>
    have ⟨hs', hl', hlater, hpost'⟩ := h.calm (hpre hp) hquiet hs hl
    ⟨hs', hl', hlater, hpost hp hpost'⟩⟩

theorem of_step {Φ : Solution → Prop} (h : Step F [] s s' pre' post Φ)
    (hpre : pre → s.Sane F → s.Lucid F → pre') : Advance F s s' pre post where
  alarms := h.frame.alarms
  size := h.frame.size
  scope := h.frame.scope ▸ fun _ hi => hi
  binders i b hb := by
    obtain ⟨b', hb', -, hscheme⟩ := h.frame.binders i b hb
    exact ⟨b', hb', hscheme⟩
  calm hp hquiet hs hl := by
    obtain ⟨hs', hlater, hpost, -⟩ := h.calm (hpre hp hs hl) hquiet hs
    exact ⟨hs', hl.keep h.frame, hlater, hpost⟩

theorem of_binding {bound : List Nat} {Γ : Environment} {Φ : Solution → Prop}
    (h : Step F bound s s' pre' (s'.Binds F bound Γ) Φ) (hpre : pre → s.Lucid F → pre') :
    Advance F s s' pre True where
  alarms := h.frame.alarms
  size := h.frame.size
  scope := h.frame.scope ▸ fun _ hi => List.mem_append_right _ hi
  binders i b hb := by
    obtain ⟨b', hb', -, hscheme⟩ := h.frame.binders i b hb
    exact ⟨b', hb', hscheme⟩
  calm hp hquiet hs hl := by
    obtain ⟨hs', hlater, hbinds, -⟩ := h.calm (hpre hp hl) hquiet hs
    exact ⟨hs', hl.extend h.frame hbinds, hlater, trivial⟩

theorem of_scope (scope : CheckerScope) (h : scope.binders = s.scope.binders) :
    Advance F s { s with scope } pre True :=
  ⟨Nat.le_refl _, Nat.le_refl _, h ▸ fun _ hi => hi, fun _ b hb => ⟨b, hb, rfl⟩,
    fun _ _ hs hl => ⟨⟨hs.frozen, hs.closed, hs.typeVars, hs.abbreviations, hs.constructors⟩,
      ⟨fun i hi => hl.binders i (h ▸ hi), hl.members⟩, .of_store (.refl F _) rfl rfl, trivial⟩⟩

theorem of_regions (regions : List OpenRegion) :
    Advance F s { s with records.regions := regions } pre True :=
  ⟨Nat.le_refl _, Nat.le_refl _, fun _ hi => hi, fun _ b hb => ⟨b, hb, rfl⟩,
    fun _ _ hs hl => ⟨⟨hs.frozen, hs.closed, hs.typeVars, hs.abbreviations, hs.constructors⟩,
      ⟨hl.binders, hl.members⟩,
      ⟨.refl F _, (Later.refl F s).binders, fun _ h => .inl h, fun _ h => .inl h, fun _ h => .inl h⟩,
      trivial⟩⟩

theorem of_types {typeVars abbreviations : List (String × Ty)}
    (h : pre → s.Sane F → (∀ entry ∈ typeVars, entry.2.Live F s.store.size) ∧
      ∀ entry ∈ abbreviations, entry.2.Live F s.store.size) :
    Advance F s { s with typeVars, abbreviations } pre True :=
  ⟨Nat.le_refl _, Nat.le_refl _, fun _ hi => hi, fun _ b hb => ⟨b, hb, rfl⟩,
    fun hp _ hs hl => ⟨⟨hs.frozen, hs.closed, (h hp hs).1, (h hp hs).2, hs.constructors⟩,
      ⟨hl.binders, hl.members⟩, .of_store (.refl F _) rfl rfl, trivial⟩⟩

theorem of_entities {entities : Entities}
    (h : pre → (∀ e ∈ s.entities.all, e.Live F s.store.size) →
      ∀ e ∈ entities.all, e.Live F s.store.size) :
    Advance F s { s with entities } pre True := by
  refine ⟨Nat.le_refl _, Nat.le_refl _, fun _ hi => hi, fun _ b hb => ⟨b, hb, rfl⟩,
    fun hp _ hs hl => ?_⟩
  have hlive := h hp fun e he => ⟨hl.members e he, hs.constructors e he⟩
  exact ⟨⟨hs.frozen, hs.closed, hs.typeVars, hs.abbreviations, fun e he => (hlive e he).constructors⟩,
    ⟨hl.binders, fun e he => (hlive e he).members⟩, .of_store (.refl F _) rfl rfl, trivial⟩

/-- Behind a module the scope is again what it was. -/
theorem leave (h : Advance F s s' pre post) : Advance F s { s' with scope := s.scope } pre True := by
  refine ⟨h.alarms, h.size, fun _ hi => hi, h.binders, fun hp hquiet hs hl => ?_⟩
  obtain ⟨hs', hl', hlater, -⟩ := h.calm hp hquiet hs hl
  refine ⟨⟨hs'.frozen, hs'.closed, hs'.typeVars, hs'.abbreviations, hs'.constructors⟩,
    ⟨fun i hi => ?_, hl'.members⟩,
    ⟨hlater.store, hlater.binders, hlater.members, hlater.mentions, hlater.declarations⟩, trivial⟩
  obtain ⟨b, hb, hlive⟩ := hl.binders i hi
  obtain ⟨b', hb', hscheme⟩ := h.binders i b hb
  exact ⟨b', hb', hscheme ▸ hlive.mono h.size⟩

end Advance

/-! Entities -/

section Entities

variable {k : Nat} {es : Entities} {e : Entity}

theorem Entities.live_declare (h : ∀ e ∈ es.all, e.Live F k) (he : e.Live F k) :
    ∀ e' ∈ (es.declare e).all, e'.Live F k :=
  List.forall_mem_cons.mpr ⟨he, h⟩

theorem Entities.mem_modifyFirst {path : String} {f : Entity → Entity} {l : List Entity}
    (h : e ∈ modifyFirst path f l) : e ∈ l ∨ ∃ e' ∈ l, e = f e' := by
  induction l with
  | nil => cases h
  | cons e' l ih =>
    unfold modifyFirst at h
    split at h
    · rcases List.mem_cons.mp h with rfl | h
      · exact .inr ⟨e', List.mem_cons_self, rfl⟩
      · exact .inl (List.mem_cons_of_mem _ h)
    · rcases List.mem_cons.mp h with rfl | h
      · exact .inl List.mem_cons_self
      · rcases ih h with h | ⟨e₁, he₁, heq⟩
        · exact .inl (List.mem_cons_of_mem _ h)
        · exact .inr ⟨e₁, List.mem_cons_of_mem _ he₁, heq⟩

theorem Entities.live_modify {path : String} {f : Entity → Entity} (h : ∀ e ∈ es.all, e.Live F k)
    (hf : ∀ e : Entity, e.Live F k → (f e).Live F k) :
    ∀ e' ∈ (es.modifyDeclared path f).all, e'.Live F k := by
  intro e' he'
  rcases List.mem_append.mp he' with hdeclared | hlibrary
  · rcases mem_modifyFirst hdeclared with hmem | ⟨e, he, rfl⟩
    · exact h e' (List.mem_append_left _ hmem)
    · exact hf e (h e (List.mem_append_left _ he))
  · exact h e' (List.mem_append_right _ hlibrary)

theorem Entity.live_empty {path : String} {kind : EntityKind} {span : Option Span} :
    Entity.Live F k { path, kind, span } := ⟨nofun, nofun⟩

end Entities

namespace Checker

/-! Modules -/

variable (F) in
theorem declareNamespaces_advance (path before : String) (segments : List String) (s : CheckerState) :
    (declareNamespaces path before segments).Yields s fun _ s' => Advance F s s' True True := by
  induction segments generalizing before s with
  | nil => exact .here fun _ _ _ => trivial
  | cons segment segments ih =>
    simp only [declareNamespaces, yields_bind, yields_get]
    generalize (if before.isEmpty then segment else before ++ "." ++ segment) = inner
    split
    case isTrue =>
      have hdeclare : Advance F s
          { s with entities := s.entities.declare { path := inner, kind := .nameSpace } } True True :=
        .of_entities fun _ h => Entities.live_declare h Entity.live_empty
      exact (ih _ _).mono fun _ s₁ h₁ => hdeclare.next id (h₁.imp (fun _ => trivial) fun _ => id)
    case isFalse => exact ih _ s

variable (F) in
theorem recordRegion_advance (span : Span) (path : String) (s : CheckerState) :
    (recordRegion span path).Yields s fun _ s' => Advance F s s' True True :=
  Advance.of_regions (⟨span, path⟩ :: s.records.regions)

variable (F) in
theorem enterModule_advance (path : String) (name : Option Span) (region : Span) (s : CheckerState) :
    (enterModule path name region).Yields s fun _ s' => Advance F s s' True True := by
  have hlive (k : Nat) : Entity.Live F k { path, kind := .module, span := name } := Entity.live_empty
  have entered (s₁ : CheckerState) (h₁ : Advance F s s₁ True True) :
      Yields (do
        modify fun s => { s with
          entities := s.entities.declare { path, kind := .module, span := name }
          scope.modulePath := pathSegments path }
        recordRegion region path) s₁ fun _ s' => Advance F s s' True True := by
    have hentity : Advance F s₁
        { s₁ with entities := s₁.entities.declare { path, kind := .module, span := name } } True True :=
      .of_entities fun _ h => Entities.live_declare h (hlive _)
    have hscope : Advance F
        { s₁ with entities := s₁.entities.declare { path, kind := .module, span := name } } _ True True :=
      .of_scope { s₁.scope with modulePath := pathSegments path } rfl
    rw [yields_bind, yields_modify]
    refine (recordRegion_advance F region path _).mono fun _ s₂ h₂ => ?_
    exact h₁.next id (hentity.next (fun _ => trivial) (hscope.next (fun _ => trivial)
      (h₂.imp (fun _ => trivial) fun _ => id)))
  refine (declareNamespaces_advance F path "" (pathSegments path) s).bind fun _ s₁ h₁ => ?_
  cases name with
  | none => exact entered s₁ h₁
  | some span =>
    refine (declare_step F span _ s₁).bind fun _ s₂ h₂ => entered s₂ ?_
    exact h₁.next id (.of_step h₂ fun _ _ _ => (hlive 0).symbol)

/-! Bindings -/

variable (F) in
theorem publish_advance (b : Binder) (s : CheckerState) :
    (publish b).Yields s fun _ s' => Advance F s s' (b.scheme.Live F s.store.size) True := by
  refine .of_entities fun hlive h => Entities.live_modify h fun e he => ⟨fun m hm => ?_, he.constructors⟩
  rcases List.mem_append.mp hm with hold | hnew
  · exact he.members m (List.mem_of_mem_filter hold)
  · rw [List.mem_singleton.mp hnew]
    exact hlive

variable (F) in
theorem publishAll_advance (bound : List Nat) (declared : List String) (s : CheckerState) :
    (publishAll bound declared).Yields s fun _ s' => Advance F s s' (bound ⊆ s.scope.binders) True := by
  induction bound generalizing declared s with
  | nil => exact .here fun _ _ _ => trivial
  | cons i bound ih =>
    rw [publishAll, yields_bind, yields_binderAt]
    refine Yields.mono (Q := fun _ s' => Advance F (s.demand .binder (i < s.binders.size)) s'
      (i :: bound ⊆ s.scope.binders) True) ?_ fun _ s₁ h₁ =>
        (Advance.of_step (demand_step F .binder _ s) fun _ _ _ => trivial).next (fun _ => trivial)
          (h₁.imp And.left fun _ => id)
    rw [show s.binders[i]? = (s.demand .binder (i < s.binders.size)).binders[i]? from rfl]
    change Yields _ _ fun _ s' =>
      Advance F _ s' (i :: bound ⊆ (s.demand .binder (i < s.binders.size)).scope.binders) True
    generalize s.demand .binder (i < s.binders.size) = s
    split
    case h_1 => exact (ih declared s).mono fun _ s₁ h₁ => h₁.imp (fun h _ hi => h (by simp [hi])) fun _ => id
    case h_2 b hb =>
      have published (s₁ : CheckerState) (h₁ : Step F [] s s₁ True True fun _ => True) :
          Yields (do
            publish b
            publishAll bound (b.simpleName :: declared)) s₁ fun _ s' =>
              Advance F s s' (i :: bound ⊆ s.scope.binders) True := by
        refine (publish_advance F b s₁).bind fun _ s₂ h₂ => ?_
        refine (ih _ s₂).mono fun _ s₃ h₃ => ?_
        have hstart : Advance F s s₁ (i :: bound ⊆ s.scope.binders) (b.scheme.Live F s₁.store.size) := by
          refine (Advance.of_step h₁ fun _ _ _ => trivial).next id (.here fun hpre _ hl => ?_)
          obtain ⟨b₀, hb₀, hlive⟩ := hl.binders i (h₁.frame.scope ▸ hpre.1 (by simp))
          obtain ⟨b₁, hb₁, -, hscheme⟩ := h₁.frame.binders i b hb
          obtain rfl : b₀ = b₁ := Option.some.inj (hb₀.symm.trans hb₁)
          exact hscheme ▸ hlive
        refine hstart.next id (h₂.next And.right (h₃.imp (fun h j hj => ?_) fun _ => id))
        exact h₂.scope (h₁.frame.scope ▸ h.1.1 (by simp [hj]))
      simp only [yields_bind, yields_get]
      split
      case isTrue => exact (warn_step F _ b.span s rfl).bind fun _ s₁ h₁ => published s₁ h₁
      case isFalse => exact published s (.done id fun _ _ => trivial)

theorem checkModuleBinding_advance (F : Nat → Prop) {b : Binding} (hhead : b.toLetHead.isWhole = true)
    (hbody : b.body.isWhole = true) (stop : Nat) (declared : List String) (s : CheckerState) :
    (checkModuleBinding b stop declared).Yields s fun _ s' => Advance F s s' True True := by
  have hreset : Advance F s { s with typeVars := [] } True True :=
    .of_types fun _ hs => ⟨nofun, hs.abbreviations⟩
  have hvalue : InfersValue F (fun _ => Lucid F) (fun _ _ _ => True)
      (fun e => valueOf b.body (expr b.body e)) b.toLetHead.innerNames [] :=
    fun _ _ => (expr_flows F b.body hbody).infers
  simp only [checkModuleBinding, yields_bind, yields_modify]
  refine (checkBinding_step (lucid_scoping F) b.toLetHead [] hvalue b.body stop true _).mono
    fun bound s₁ h₁ => ?_
  obtain ⟨Γ', -, -, h₁⟩ := h₁
  refine (publishAll_advance F bound declared s₁).mono fun _ s₂ h₂ => ?_
  refine hreset.next id ((Advance.of_binding h₁ fun _ hl => ⟨hl, hhead⟩).next id
    (h₂.imp (fun _ i hi => ?_) fun _ => id))
  rw [h₁.frame.scope]
  exact List.mem_append_left _ (List.mem_reverse.mpr hi)

/-! Types -/

theorem recordFields_step (F : Nat → Prop) (path : String) (fields : List (Ident × TypeExpr))
    (hwhole : fields.all (·.2.isWhole) = true) (s : CheckerState) :
    (recordFields path fields).Yields s fun ms s' =>
      Step F [] s s' True (∀ m ∈ ms, m.kind.Live F s'.store.size) fun _ => True := by
  induction fields generalizing s with
  | nil => exact .done (fun _ => nofun) fun _ _ => trivial
  | cons field fields ih =>
    obtain ⟨name, written⟩ := field
    obtain ⟨hwritten, hfields⟩ := Bool.and_eq_true_iff.mp hwhole
    refine (annotation_step F written s).bind fun t s₁ h₁ => ?_
    refine (declare_step F name.span _ s₁).bind fun _ s₂ h₂ => ?_
    refine (ih hfields s₂).bind fun ms s₃ h₃ => ?_
    refine h₁.next (fun _ => hwritten) (h₂.next (fun h => .member path (Ty.Live.errorFree h.2))
      (h₃.imp (fun _ => trivial) (fun h hms => ?_) fun _ _ _ _ _ _ => trivial))
    exact List.forall_mem_cons.mpr ⟨h₃.frame.live (h₂.frame.live h.1.2), hms⟩

theorem checkType_advance (F : Nat → Prop) (name : Ident) {body : TypeBody} (hwhole : body.isWhole = true)
    (s : CheckerState) :
    (checkType name body).Yields s fun _ s' => Advance F s s' True True := by
  have hreset : Advance F s { s with typeVars := [] } True True :=
    .of_types fun _ hs => ⟨nofun, hs.abbreviations⟩
  simp only [checkType, yields_bind, yields_modify, yields_get]
  generalize CheckerState.qualified _ name.text = path
  cases body with
  | record fields =>
    simp only [yields_bind, yields_modify, yields_get]
    refine (recordFields_step F path fields hwhole _).mono fun ms s₁ h₁ => ?_
    have hdeclare : Advance F { s with typeVars := [] } { s with
        typeVars := []
        entities := s.entities.declare { path, kind := .type, span := some name.span } } True True :=
      .of_entities fun _ h => Entities.live_declare h Entity.live_empty
    have hfields : Advance F s s₁ True (∀ m ∈ ms, m.kind.Live F s₁.store.size) :=
      hreset.next id (hdeclare.next (fun _ => trivial) (.of_step h₁ fun _ _ _ => trivial))
    have hmembers : Advance F s₁
        { s₁ with entities := s₁.entities.modifyDeclared path ({ · with members := ms }) }
        (∀ m ∈ ms, m.kind.Live F s₁.store.size) True :=
      .of_entities fun hms h => Entities.live_modify h fun e he => ⟨hms, he.constructors⟩
    have hstart := hfields.next id (hmembers.imp And.right fun _ => id)
    split
    case h_1 e he =>
      refine (declare_step F name.span (.fixed e.symbol) _).mono fun _ s₂ h₂ => ?_
      exact hstart.next id (.of_step h₂ fun _ hs _ => hs.symbol he)
    case h_2 => exact hstart
  | abbreviation written =>
    refine (annotation_step F written _).bind fun t s₁ h₁ => ?_
    refine (declare_step F name.span _ s₁).bind fun _ s₂ h₂ => ?_
    have hannotation : Advance F s s₁ True (t.Live F s₁.store.size) :=
      hreset.next id (.of_step h₁ fun _ _ _ => hwhole)
    have hdeclare : Advance F s₁ s₂ (t.Live F s₁.store.size) (t.Live F s₂.store.size) :=
      (Advance.of_step h₂ fun ht _ _ => .abbreviation path name.text name.span ht.errorFree).imp id
        fun ht _ => h₂.frame.live ht
    have habbreviation : Advance F s₂ { s₂ with abbreviations := (path, t) :: s₂.abbreviations }
        (t.Live F s₂.store.size) True :=
      .of_types fun ht hs => ⟨hs.typeVars, List.forall_mem_cons.mpr ⟨ht, hs.abbreviations⟩⟩
    exact hannotation.next id ((hdeclare.imp And.right fun _ => id).next id
      (habbreviation.imp And.right fun _ => id))

/-! Declarations -/

variable (F) in
theorem checkOpen_advance (span : Span) (name : LongIdent) (stop : Nat) (s : CheckerState) :
    (checkOpen span name stop).Yields s fun _ s' => Advance F s s' True True := by
  simp only [checkOpen, yields_bind, yields_get]
  split
  case h_1 => exact (report_step F _ name.span s rfl).mono fun _ s₁ h₁ =>
    (Advance.of_step h₁ fun _ _ _ => trivial).imp id fun _ _ => trivial
  case h_2 path _ =>
    refine (mentionEntity_step F name path s).bind fun _ s₁ h₁ => ?_
    rw [yields_bind, yields_modify]
    refine (recordRegion_advance F ⟨span.stop, stop⟩ path _).mono fun _ s₂ h₂ => ?_
    have hopen : Advance F s₁ _ True True :=
      .of_scope { s₁.scope with opens := path :: s₁.scope.opens } rfl
    exact (Advance.of_step h₁ fun _ _ _ => trivial).next id (hopen.next (fun _ => trivial)
      (h₂.imp (fun _ => trivial) fun _ => id))

theorem checkExpr_advance (F : Nat → Prop) {e : Expr} (hwhole : e.isWhole = true) (kind : SourceKind)
    (declared : List String) (s : CheckerState) :
    Yields (do
      let t ← valueOf e (expr e none)
      if kind = .module then warnIgnored t e.span
      return declared) s fun _ s' => Advance F s s' True True := by
  refine ((expr_flows F e hwhole).infers none s).bind fun t s₁ h₁ => ?_
  have hvalue : Advance F s s₁ True (t.Live F s₁.store.size) := .of_step h₁ fun _ _ hl => ⟨hl, nofun⟩
  split
  case isTrue =>
    refine (warnIgnored_step F t e.span s₁).bind fun _ s₂ h₂ => ?_
    exact hvalue.next id (.of_step h₂ fun h _ _ => h.2)
  case isFalse => exact hvalue.imp id fun _ _ => trivial

mutual

theorem decl_advance (F : Nat → Prop) (kind : SourceKind) (stop : Nat) (d : Decl)
    (hwhole : d.isWhole = true) (declared : List String) (s : CheckerState) :
    (decl kind stop d declared).Yields s fun _ s' => Advance F s s' True True := by
  match d, hwhole with
  | .binding _ b, hwhole =>
    obtain ⟨hhead, hbody⟩ := Bool.and_eq_true_iff.mp hwhole
    exact checkModuleBinding_advance F hhead hbody stop declared s
  | .open span name, _ => exact (checkOpen_advance F span name stop s).bind fun _ _ h => h
  | .module span name members, hwhole =>
    simp only [decl, withScope, yields_bind, yields_get, yields_modify, yields_pure]
    refine (enterModule_advance F _ (some name.span) span s).mono fun _ s₁ h₁ => ?_
    refine (decls_advance F kind span.stop members hwhole [] s₁).mono fun _ s₂ h₂ => ?_
    exact (h₁.next id (h₂.imp (fun _ => trivial) fun _ => id)).leave
  | .type _ name body, hwhole => exact (checkType_advance F name hwhole s).bind fun _ _ h => h
  | .expr _ e, hwhole => exact checkExpr_advance F hwhole kind declared s
  | .directive _ _, _ => exact .here fun _ _ _ => trivial

theorem decls_advance (F : Nat → Prop) (kind : SourceKind) (stop : Nat) (ds : List Decl)
    (hwhole : Decl.areWhole ds = true) (declared : List String) (s : CheckerState) :
    (decls kind stop ds declared).Yields s fun _ s' => Advance F s s' True True := by
  match ds, hwhole with
  | [], _ => exact .here fun _ _ _ => trivial
  | d :: ds, hwhole =>
    obtain ⟨hd, hds⟩ := Bool.and_eq_true_iff.mp hwhole
    refine (decl_advance F kind stop d hd declared s).bind fun declared s₁ h₁ => ?_
    exact (decls_advance F kind stop ds hds declared s₁).mono fun _ s₂ h₂ =>
      h₁.next id (h₂.imp (fun _ => trivial) fun _ => id)

end

/-! Files -/

theorem forM_advance {α : Type} (F : Nat → Prop) {f : α → Checker Unit}
    (h : ∀ a s, (f a).Yields s fun _ s' => Advance F s s' True True) (as : List α) (s : CheckerState) :
    (as.forM f).Yields s fun _ s' => Advance F s s' True True := by
  simp only [List.forM_eq_forM]
  induction as generalizing s with
  | nil => exact .here fun _ _ _ => trivial
  | cons a as ih =>
    rw [List.forM_cons]
    refine (h a s).bind fun _ s₁ h₁ => ?_
    exact (ih s₁).mono fun _ s₂ h₂ => h₁.next id (h₂.imp (fun _ => trivial) fun _ => id)

variable (F) in
theorem checkReferences_advance (f : SyntaxFile) (context : Context) (s : CheckerState) :
    (checkReferences f context).Yields s fun _ s' => Advance F s s' True True := by
  refine forM_advance F (fun reference s => ?_) context.references s
  split
  case h_1 name _ =>
    split
    case isTrue => exact .here fun _ _ _ => trivial
    case isFalse =>
      exact (report_step F _ _ s rfl).mono fun _ s₁ h₁ =>
        (Advance.of_step h₁ fun _ _ _ => trivial).imp id fun _ _ => trivial
  case h_2 => exact .here fun _ _ _ => trivial

variable (F) in
theorem reportProblems_advance (context : Context) (s : CheckerState) :
    (context.problems.forM fun p => report (.directiveNotApplied p.render) p.span).Yields s
      fun _ s' => Advance F s s' True True :=
  forM_advance F (fun p s => (warn_step F _ p.span s rfl).mono fun _ _ h₁ =>
    .of_step h₁ fun _ _ _ => trivial) context.problems s

/-- What is done in front of the first declaration of a file. -/
def prelude (f : SyntaxFile) (context : Context) : Checker Unit := do
  checkReferences f context
  context.problems.forM fun p => report (.directiveNotApplied p.render) p.span
  if let some path := f.moduleName? then
    enterModule path (f.header.map LongIdent.span) ⟨0, f.text.byteSize⟩

theorem file_eq (f : SyntaxFile) (context : Context) :
    file f context = prelude f context >>= fun _ => decls f.kind f.text.byteSize f.decls [] := by
  unfold file prelude
  cases f.moduleName? <;> simp

variable (F) in
theorem prelude_advance (f : SyntaxFile) (context : Context) (s : CheckerState) :
    (prelude f context).Yields s fun _ s' => Advance F s s' True True := by
  refine (checkReferences_advance F f context s).bind fun _ s₁ h₁ => ?_
  refine (reportProblems_advance F context s₁).bind fun _ s₂ h₂ => ?_
  have hstart : Advance F s s₂ True True := h₁.next id (h₂.imp (fun _ => trivial) fun _ => id)
  split
  case h_1 path _ =>
    exact (enterModule_advance F path _ _ s₂).mono fun _ s₃ h₃ =>
      hstart.next id (h₃.imp (fun _ => trivial) fun _ => id)
  case h_2 => exact hstart

end Checker

end ScriptAnalyzer

import ScriptAnalyzer.Proofs.Typing.Bindings

namespace ScriptAnalyzer

open CheckerState

variable {F : Nat → Prop} {k : Nat}

/-! The built-in libraries -/

def Ty.isClosed (t : Ty) : Bool := !t.hasError && t.vars.isEmpty

theorem Ty.live_of_isClosed {t : Ty} (h : t.isClosed = true) : t.Live F k := by
  simp only [isClosed, Bool.and_eq_true, Bool.not_eq_true', List.isEmpty_iff] at h
  exact live_of_closed h.1 h.2

def Overload.isClosed (o : Overload) : Bool := o.params.all (·.type.isClosed) && o.returnType.isClosed

theorem Overload.live_of_isClosed {o : Overload} (h : o.isClosed = true) : o.Live F k := by
  simp only [isClosed, Bool.and_eq_true, List.all_eq_true] at h
  exact ⟨fun p hp => Ty.live_of_isClosed (h.1 p hp), Ty.live_of_isClosed h.2⟩

def MemberKind.isClosed : MemberKind → Bool
  | .value scheme _ => !scheme.type.hasError && scheme.type.vars.all (scheme.vars.contains ·)
  | .method _ overloads => overloads.all (·.isClosed)
  | .property _ t | .field t => t.isClosed

theorem MemberKind.live_of_isClosed {m : MemberKind} (h : m.isClosed = true) : m.Live F k := by
  cases m with
  | value scheme params =>
    simp only [isClosed, Bool.and_eq_true, Bool.not_eq_true', List.all_eq_true,
      List.contains_iff_mem] at h
    exact ⟨h.1, fun v hv => .inl (h.2 v hv)⟩
  | method isStatic overloads =>
    exact fun o ho => Overload.live_of_isClosed (List.all_eq_true.mp h o ho)
  | property isStatic t => exact Ty.live_of_isClosed h
  | field t => exact Ty.live_of_isClosed h

def Entity.isClosed (e : Entity) : Bool :=
  e.members.all (·.kind.isClosed) && e.constructors.all (·.isClosed)

theorem Entity.live_of_isClosed {e : Entity} (h : e.isClosed = true) : e.Live F k := by
  simp only [isClosed, Bool.and_eq_true, List.all_eq_true] at h
  exact ⟨fun m hm => MemberKind.live_of_isClosed (h.1 m hm),
    fun o ho => Overload.live_of_isClosed (h.2 o ho)⟩

namespace Catalog

theorem libraries_closed : libraries.all (fun l => l.2.all (·.isClosed)) = true := by decide +kernel

theorem library_live {name : String} {entities : List Entity} (h : (name, entities) ∈ libraries) :
    ∀ e ∈ entities, e.Live F k := fun e he =>
  Entity.live_of_isClosed (List.all_eq_true.mp (List.all_eq_true.mp libraries_closed _ h) e he)

theorem live_of_entitiesOf {names : List String} {e : Entity} (h : e ∈ entitiesOf names) :
    e.Live F k := by
  obtain ⟨l, hl, he⟩ := List.mem_flatMap.mp h
  exact library_live (List.mem_filter.mp hl).1 e he

theorem object_live : Entity.Live F k object := by
  have h : ("System", [system, object, string, int32, math, console]) ∈ libraries := by
    simp [libraries]
  exact library_live h object (by simp)

end Catalog

/-- The names in scope and the members of all entities have live types. -/
structure CheckerState.Lucid (F : Nat → Prop) (s : CheckerState) : Prop where
  binders : ∀ i ∈ s.scope.binders, ∃ b, s.binders[i]? = some b ∧ b.scheme.Live F s.store.size
  members : ∀ e ∈ s.entities.all, ∀ m ∈ e.members, m.kind.Live F s.store.size

theorem CheckerState.Binds.live_binder {s : CheckerState} {bound : List Nat} {Γ : Environment}
    (h : s.Binds F bound Γ) {i : Nat} (hi : i ∈ bound) :
    ∃ b, s.binders[i]? = some b ∧ b.scheme.Live F s.store.size := by
  obtain ⟨n, hn, rfl⟩ := List.mem_iff_getElem.mp hi
  have hlength := h.entries.length_eq
  obtain ⟨b, hb, hentry⟩ := h.entries.get hn (hlength ▸ hn)
  refine ⟨b, hb, ?_⟩
  have hlive := h.live (b.simpleName, b.scheme) (hentry ▸ List.getElem_mem _)
  exact hlive

theorem CheckerState.Lucid.extend {s s' : CheckerState} {bound : List Nat} {Γ : Environment}
    (hs : s.Lucid F) (hframe : s.Frame bound s') (hbinds : s'.Binds F bound Γ) : s'.Lucid F := by
  refine ⟨fun i hi => ?_, fun e he m hm => ?_⟩
  · rw [hframe.scope, List.mem_append, List.mem_reverse] at hi
    rcases hi with hi | hi
    · exact hbinds.live_binder hi
    · obtain ⟨b, hb, hlive⟩ := hs.binders i hi
      obtain ⟨b', hb', -, hscheme⟩ := hframe.binders i b hb
      exact ⟨b', hb', hscheme ▸ hlive.mono hframe.size⟩
  · rw [hframe.entities] at he
    exact (hs.members e he m hm).mono hframe.size

theorem lucid_scoping (F : Nat → Prop) : Scoping F fun _ => Lucid F :=
  fun _ _ _ _ _ hframe _ hbinds hs => hs.extend hframe hbinds

namespace CheckerState

variable {s s' : CheckerState}

theorem Lucid.keep (h : s.Lucid F) (hframe : s.Frame [] s') : s'.Lucid F :=
  h.extend hframe (.nil F s')

theorem Lucid.member? {path name : String} {e : Entity} {m : Member} (hs : s.Lucid F)
    (he : s.entities.find? path = some e) (hm : e.member? name = some m) :
    m.kind.Live F s.store.size :=
  hs.members e (List.mem_of_find?_eq_some he) m (List.mem_of_find?_eq_some hm)

theorem Lucid.staticMember? {path name : String} {e : Entity} {m : Member} (hs : s.Lucid F)
    (he : s.entities.find? path = some e) (hm : e.staticMember? name = some m) :
    m.kind.Live F s.store.size :=
  hs.member? he (Option.filter_eq_some_iff.mp hm).1

theorem Lucid.memberOf? {name owner : String} {owners : List String} {m : Member}
    (hs : s.Lucid F) (h : s.memberOf? name owners = some (owner, m)) :
    m.kind.Live F s.store.size := by
  obtain ⟨path, -, hpath⟩ := List.exists_of_findSome?_eq_some h
  obtain ⟨m', hm', heq⟩ := Option.map_eq_some_iff.mp hpath
  obtain ⟨e, he, hmember⟩ := Option.bind_eq_some_iff.mp hm'
  obtain ⟨-, rfl⟩ := Prod.mk.inj heq
  exact hs.staticMember? he hmember

theorem Lucid.memberOfType? {t : Ty} {name owner : String} {m : Member} (hs : s.Lucid F)
    (h : s.entities.memberOfType? t name = some (owner, m)) : m.kind.Live F s.store.size := by
  obtain ⟨e, he, hm⟩ | ⟨-, hcommon⟩ := Entities.mem_membersOfType (List.mem_of_find?_eq_some h)
  · exact hs.members e (List.mem_of_find?_eq_some he) m hm
  · exact Catalog.object_live.members m hcommon

/-- The binder that a name means is in scope. -/
theorem binder?_mem {name : String} {i : Nat} (h : s.binder? name = some i) :
    i ∈ s.scope.binders :=
  List.mem_of_find?_eq_some h

end CheckerState

namespace Checker

variable {s : CheckerState}

/-! What names stand for -/

variable (F) in
theorem memberCallee_step (owner : String) (m : Member) (s : CheckerState) :
    (memberCallee owner m).Yields s fun c s' =>
      Step F [] s s' (m.kind.Live F s.store.size) (c.Live F s'.store.size) fun _ => True := by
  unfold memberCallee
  generalize m.kind = kind
  cases kind with
  | value scheme params =>
    refine (instantiate_step F scheme s).bind fun t s₁ h₁ => ?_
    exact h₁.imp id (fun _ => id) fun _ _ _ _ => trivial
  | method isStatic overloads => exact .done id fun _ _ => trivial
  | property isStatic t => exact .done id fun _ _ => trivial
  | field t => exact .done id fun _ _ => trivial

variable (F) in
theorem foundMember_step (span : Span) (owner : String) (m : Member) (s : CheckerState) :
    Yields (do
      mention span (.fixed (m.symbol owner))
      memberCallee owner m) s fun c s' =>
        Step F [] s s' (m.kind.Live F s.store.size) (c.Live F s'.store.size) fun _ => True := by
  refine (mention_step F span (.fixed (m.symbol owner)) s).bind fun _ s₁ h₁ => ?_
  refine (memberCallee_step F owner m s₁).mono fun c s₂ h₂ => ?_
  refine h₁.next (fun h => .member owner h.errorFree) (h₂.imp (fun h => ?_) (fun _ => id) fun _ _ _ _ _ =>
    trivial)
  exact h.1.mono h₁.frame.size

variable (F) in
/-- A report, and the error type as the result. -/
theorem failed_step (cause : TypeError.Cause) (span : Span) (s : CheckerState)
    (h : cause.isWarning = false) :
    Yields (do
      report cause span
      return Callee.value .error) s fun c s' =>
        Step F [] s s' True (c.Live F s'.store.size) fun _ => True := by
  refine (report_step F cause span s h).bind fun _ s₁ h₁ => ?_
  exact h₁.imp id (fun _ => False.elim) fun _ => False.elim

variable (F) in
theorem entityCallee_step (path : String) (name : Ident) (s : CheckerState) :
    (entityCallee path name).Yields s fun c s' =>
      Step F [] s s' (s.entities.contains path = true) (c.Live F s'.store.size) fun _ => True := by
  simp only [entityCallee, yields_bind, yields_get]
  split
  case h_1 hnone => exact .done (by simp [Entities.contains, hnone]) fun _ _ => trivial
  case h_2 e he =>
    refine (mention_step F name.span (.fixed e.symbol) s).bind fun _ s₁ h₁ => ?_
    have hsymbol (h : s.entities.contains path = true ∧ s.Sane F) : e.symbol.ErrorFree := h.2.symbol he
    split
    case isTrue =>
      refine (failed_step F (.notAValue name.text path e.kind) name.span s₁ rfl).mono fun c s₂ h₂ =>
        .of_sane ?_
      exact h₁.next hsymbol (h₂.imp (fun _ => trivial) (fun _ => id) fun _ _ _ h _ => h)
    case isFalse =>
      refine .of_sane (h₁.imp hsymbol (fun h _ o ho => ?_) fun _ _ _ h => h)
      have hlive := h.2.constructors e (List.mem_of_find?_eq_some he) o ho
      exact hlive.mono h₁.frame.size

variable (F) in
theorem readScope_step (s : CheckerState) : Step F [] s s.readScope True True fun _ => True :=
  demand_step F .binder _ s

/-- What was known of a state is still known when its scope has been read. -/
theorem step_of_readScope {α : Type} {p : Checker α} {post : α → CheckerState → Prop} {s : CheckerState}
    (h : p.Yields s.readScope fun a s' =>
      Step F [] s.readScope s' (s.readScope.Lucid F) (post a s') fun _ => True) :
    p.Yields s.readScope fun a s' => Step F [] s s' (s.Lucid F) (post a s') fun _ => True :=
  h.mono fun _ _ h₁ => (readScope_step F s).next (fun _ => trivial)
    (h₁.imp (fun h => h.1.keep (readScope_step F s).frame) (fun _ => id) fun _ _ _ h _ => h)

variable (F) in
theorem nameCallee_step (name : Ident) (s : CheckerState) :
    (nameCallee name).Yields s fun c s' =>
      Step F [] s s' (s.Lucid F) (c.Live F s'.store.size) fun _ => True := by
  rw [nameCallee, yields_bind, yields_readScope]
  refine step_of_readScope ?_
  generalize s.readScope = s
  simp only [yields_bind, yields_get]
  cases hmeaning : s.meaning? name.text with
  | none =>
    refine (failed_step F (.undefinedValue name.text) name.span s rfl).mono fun c s₁ h₁ => ?_
    exact h₁.imp (fun _ => trivial) (fun _ => id) fun _ _ _ h => h
  | some meaning =>
    unfold meaning? at hmeaning
    split at hmeaning
    case h_1 i hi =>
      obtain rfl := Option.some.inj hmeaning
      refine (binderCallee_step F i name.span s).mono fun c s₁ h₁ => ?_
      exact h₁.imp (fun h => h.binders i (binder?_mem hi)) (fun _ => id) fun _ _ _ _ => trivial
    case h_2 =>
      split at hmeaning
      case h_1 owner m hm =>
        obtain rfl := Option.some.inj hmeaning
        refine (foundMember_step F name.span owner m s).mono fun c s₁ h₁ => ?_
        exact h₁.imp (fun h => h.memberOf? hm) (fun _ => id) fun _ _ _ h => h
      case h_2 =>
        obtain ⟨path, hpath, rfl⟩ := Option.map_eq_some_iff.mp hmeaning
        refine (entityCallee_step F path name s).mono fun c s₁ h₁ => ?_
        exact h₁.imp (fun _ => List.find?_some hpath) (fun _ => id) fun _ _ _ h => h

variable (F) in
theorem entityMember_step (span dot : Span) (path : String) (name? : Option Ident) (s : CheckerState) :
    (entityMember span dot path name?).Yields s fun c s' =>
      Step F [] s s' (name?.isSome = true ∧ s.Lucid F) (c.Live F s'.store.size) fun _ => True := by
  refine (recordMember_step F _ s).bind fun _ s₁ h₁ => ?_
  have hreceiver (h : name?.isSome = true ∧ s.Lucid F) :
      ∀ t, Receiver.entity path = .value t → t.Live F s.store.size := nofun
  cases name? with
  | none => exact .imp h₁ hreceiver nofun nofun
  | some name =>
    simp only [yields_bind, yields_get]
    split
    case isTrue hinner =>
      refine (entityCallee_step F _ name s₁).mono fun c s₂ h₂ => ?_
      exact h₁.next hreceiver (h₂.imp (fun _ => hinner) (fun _ => id) fun _ _ _ h _ => h)
    case isFalse =>
      split
      case h_1 m hm =>
        obtain ⟨e, he, hmember⟩ := Option.bind_eq_some_iff.mp hm
        refine (foundMember_step F name.span path m s₁).mono fun c s₂ h₂ => ?_
        refine h₁.next hreceiver (h₂.imp (fun h => ?_) (fun _ => id) fun _ _ _ h _ => h)
        exact (h.1.2.keep h₁.frame).staticMember? he hmember
      case h_2 =>
        refine (failed_step F (.undefinedIn name.text path) name.span s₁ rfl).mono fun c s₂ h₂ => ?_
        exact h₁.next hreceiver (h₂.imp (fun _ => trivial) (fun _ => id) fun _ _ _ h _ => h)

variable (F) in
theorem valueMember_step (span dot : Span) (receiver : Ty) (name? : Option Ident) (s : CheckerState) :
    (valueMember span dot receiver name?).Yields s fun c s' =>
      Step F [] s s' (name?.isSome = true ∧ s.Lucid F ∧ receiver.Live F s.store.size)
        (c.Live F s'.store.size) fun _ => True := by
  have hshallow : Step F [] s s
      (name?.isSome = true ∧ s.Lucid F ∧ receiver.Live F s.store.size) _ _ :=
    shallow_here (t := receiver) fun h => h.2.2
  simp only [valueMember, yields_bind, yields_shallow]
  generalize s.store.shallow receiver = t at hshallow
  refine (recordMember_step F _ s).mono fun _ s₁ h₁ => ?_
  have hstart := hshallow.next id (h₁.imp (fun h u hu => Receiver.value.inj hu ▸ h.2) (fun h _ =>
    h₁.frame.live h.2) fun _ _ _ h _ => h)
  split
  case h_1 => exact hstart.imp id (fun h => absurd h.1 (by simp)) fun _ _ _ h => h
  case h_2 => exact hstart.imp id (fun _ h => absurd h Ty.not_live_error) fun _ _ _ h => h
  case h_3 =>
    refine (failed_step F .indeterminateLookup span s₁ rfl).mono fun c s₂ h₂ => ?_
    exact hstart.next id (h₂.imp (fun _ => trivial) (fun _ => id) fun _ _ _ h _ => h)
  case h_4 _ _ name _ _ =>
    simp only [yields_bind, yields_get]
    split
    case h_1 owner m hm =>
      refine (foundMember_step F name.span owner m s₁).mono fun c s₂ h₂ => ?_
      refine hstart.next id (h₂.imp (fun h => ?_) (fun _ => id) fun _ _ _ h _ => h)
      exact (h.1.2.1.keep h₁.frame).memberOfType? hm
    case h_2 =>
      rw [yields_bind, yields_zonk]
      refine (failed_step F (.undefinedMember (s₁.store.zonk t) name.text) name.span s₁ rfl).mono
        fun c s₂ h₂ => ?_
      exact hstart.next id (h₂.imp (fun _ => trivial) (fun _ => id) fun _ _ _ h _ => h)

end Checker

end ScriptAnalyzer

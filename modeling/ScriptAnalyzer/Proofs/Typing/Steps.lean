import ScriptAnalyzer.Typing.Pattern
import ScriptAnalyzer.Proofs.Typing.Live

namespace ScriptAnalyzer

open TypeStore (Closed Develops Satisfies)

section ErrorFree

def Overload.ErrorFree (o : Overload) : Prop :=
  (∀ p ∈ o.params, p.type.hasError = false) ∧ o.returnType.hasError = false

def MemberKind.ErrorFree : MemberKind → Prop
  | .value scheme _ => scheme.type.hasError = false
  | .method _ overloads => ∀ o ∈ overloads, o.ErrorFree
  | .property _ t | .field t => t.hasError = false

/-- The symbols that are shown as they were found, all types in them without the error type. -/
inductive Symbol.ErrorFree : Symbol → Prop where
  | member {m : Member} (owner : String) (h : m.kind.ErrorFree) : ErrorFree (m.symbol owner)
  | entity {e : Entity} (h : ∀ o ∈ e.constructors, o.ErrorFree) : ErrorFree e.symbol
  | abbreviation {t : Ty} (path name : String) (span : Span) (h : t.hasError = false) :
      ErrorFree
        { name := path, kind := .type, signature := "type " ++ name ++ " = " ++ t.render
          span := some span }
  | binder {t : Ty} (b : Binder) (h : t.hasError = false) :
      ErrorFree
        (match Checker.bindingSignature? t b.params with
        | some signature =>
          { name := b.name, kind := .function, signature := t.render, overloads := [signature]
            span := some b.span }
        | none => { name := b.name, kind := .value, signature := t.render, span := some b.span })

def Target.ErrorFree : Target → Prop
  | .binder _ => True
  | .fixed symbol => symbol.ErrorFree

variable {F : Nat → Prop} {k : Nat}

theorem Overload.Live.errorFree {o : Overload} (h : o.Live F k) : o.ErrorFree :=
  ⟨fun p hp => (h.params p hp).errorFree, h.returnType.errorFree⟩

theorem MemberKind.Live.errorFree {m : MemberKind} (h : m.Live F k) : m.ErrorFree := by
  cases m with
  | value scheme params => exact Scheme.Live.errorFree h
  | method isStatic overloads => exact fun o ho => (h o ho).errorFree
  | property isStatic t => exact Ty.Live.errorFree h
  | field t => exact Ty.Live.errorFree h

theorem Entity.Live.symbol {e : Entity} (h : e.Live F k) : e.symbol.ErrorFree :=
  .entity fun o ho => (h.constructors o ho).errorFree

end ErrorFree

/-- Types for the variables of a store, and for the written type variables. -/
structure Solution where
  type : Nat → Ty
  named : String → Ty

namespace CheckerState

variable {F : Nat → Prop} {bound bound' : List Nat} {s s₁ s' : CheckerState} {t : Ty}

/-- The number of errors that are no warnings. -/
def alarms (s : CheckerState) : Nat := s.records.errors.countP (!·.cause.isWarning)

/-- The binders `bound` of the state have the names and schemes `Γ`, and live types. -/
structure Binds (F : Nat → Prop) (s : CheckerState) (bound : List Nat) (Γ : List (String × Scheme)) :
    Prop where
  entries : List.Forall₂
    (fun i entry => ∃ b, s.binders[i]? = some b ∧ (b.simpleName, b.scheme) = entry) bound Γ
  live : ∀ entry ∈ Γ, entry.2.Live F s.store.size

theorem Binds.nil (F : Nat → Prop) (s : CheckerState) : s.Binds F [] [] := ⟨.nil, nofun⟩

theorem Binds.append {Γ Γ' : List (String × Scheme)} (h : s.Binds F bound Γ)
    (h' : s.Binds F bound' Γ') : s.Binds F (bound ++ bound') (Γ ++ Γ') :=
  ⟨List.rel_append h.entries h'.entries, fun entry hentry =>
    (List.mem_append.mp hentry).elim (h.live entry) (h'.live entry)⟩

/-- What checking leaves as it is, whatever it reports. The binders `bound` are new, and in scope. -/
structure Frame (bound : List Nat) (s s' : CheckerState) : Prop where
  alarms : s.alarms ≤ s'.alarms
  size : s.store.size ≤ s'.store.size
  scope : s'.scope = { s.scope with binders := bound.reverse ++ s.scope.binders }
  entities : s'.entities = s.entities
  abbreviations : s'.abbreviations = s.abbreviations
  typeVars : ∀ name t, s.typeVars.lookup name = some t → s'.typeVars.lookup name = some t
  binders : ∀ (i : Nat) (b : Binder), s.binders[i]? = some b →
    ∃ b', s'.binders[i]? = some b' ∧ b'.simpleName = b.simpleName ∧ b'.scheme = b.scheme
  fresh : ∀ i ∈ bound, s.binders.size ≤ i ∧ i < s'.binders.size

theorem Frame.refl (s : CheckerState) : Frame [] s s :=
  ⟨Nat.le_refl _, Nat.le_refl _, rfl, rfl, rfl, fun _ _ h => h, fun _ b h => ⟨b, h, rfl, rfl⟩, nofun⟩

theorem Frame.binders_size (h : Frame bound s s') : s.binders.size ≤ s'.binders.size := by
  by_contra hlt
  obtain ⟨b, hb, -⟩ := h.binders s'.binders.size _ (Array.getElem?_eq_getElem (by omega))
  simp at hb

theorem Frame.trans (h : Frame bound s s₁) (h' : Frame bound' s₁ s') :
    Frame (bound ++ bound') s s' where
  alarms := h.alarms.trans h'.alarms
  size := h.size.trans h'.size
  scope := by rw [h'.scope, h.scope, List.reverse_append, List.append_assoc]
  entities := h'.entities.trans h.entities
  abbreviations := h'.abbreviations.trans h.abbreviations
  typeVars name t ht := h'.typeVars name t (h.typeVars name t ht)
  binders i b hb := by
    obtain ⟨b₁, hb₁, hname₁, hscheme₁⟩ := h.binders i b hb
    obtain ⟨b', hb', hname, hscheme⟩ := h'.binders i b₁ hb₁
    exact ⟨b', hb', hname.trans hname₁, hscheme.trans hscheme₁⟩
  fresh i hi := by
    have hsize := h.binders_size
    have hsize' := h'.binders_size
    rcases List.mem_append.mp hi with hi | hi
    · have := h.fresh i hi
      omega
    · have := h'.fresh i hi
      omega

theorem Frame.restore (h : Frame bound s s') : Frame [] s { s' with scope := s.scope } :=
  ⟨h.alarms, h.size, rfl, h.entities, h.abbreviations, h.typeVars, h.binders, nofun⟩

theorem Frame.live (h : Frame bound s s') (ht : t.Live F s.store.size) : t.Live F s'.store.size :=
  ht.mono h.size

theorem Frame.binds {indices : List Nat} {Γ : List (String × Scheme)} (h : Frame bound s s')
    (hΓ : s.Binds F indices Γ) : s'.Binds F indices Γ := by
  refine ⟨List.Forall₂.imp ?_ hΓ.entries, fun entry hentry => (hΓ.live entry hentry).mono h.size⟩
  rintro i entry ⟨b, hb, rfl⟩
  obtain ⟨b', hb', hname, hscheme⟩ := h.binders i b hb
  exact ⟨b', hb', by rw [hname, hscheme]⟩

/-- What checking adds to a state without an error: live types only. -/
structure Later (F : Nat → Prop) (s s' : CheckerState) : Prop where
  store : Develops F s.store s'.store
  binders : ∀ (i : Nat) (b : Binder), s.binders.size ≤ i → s'.binders[i]? = some b → b.scheme.Live F s'.store.size
  members : ∀ m ∈ s'.records.members,
    m ∈ s.records.members ∨ ∀ t, m.receiver = .value t → t.Live F s'.store.size
  mentions : ∀ m ∈ s'.records.mentions, m ∈ s.records.mentions ∨ m.target.ErrorFree
  declarations : ∀ d ∈ s'.records.declarations,
    d ∈ s.records.declarations ∨ d.2.ErrorFree

theorem Later.of_binders (hstore : Develops F s.store s'.store) (hrecords : s'.records = s.records)
    (hbinders : ∀ (i : Nat) (b : Binder), s.binders.size ≤ i → s'.binders[i]? = some b →
      b.scheme.Live F s'.store.size) : Later F s s' :=
  ⟨hstore, hbinders, fun _ hm => .inl (hrecords ▸ hm), fun _ hm => .inl (hrecords ▸ hm),
    fun _ hd => .inl (hrecords ▸ hd)⟩

theorem Later.of_store (hstore : Develops F s.store s'.store) (hbinders : s'.binders = s.binders)
    (hrecords : s'.records = s.records) : Later F s s' := by
  refine .of_binders hstore hrecords fun i b hi hb => ?_
  rw [hbinders, Array.getElem?_eq_none hi] at hb
  cases hb

theorem Later.refl (F : Nat → Prop) (s : CheckerState) : Later F s s :=
  .of_store (Develops.refl F _) rfl rfl

theorem Later.trans (h : Later F s s₁) (h' : Later F s₁ s')
    (hkept : ∀ (i : Nat) (b : Binder), s₁.binders[i]? = some b →
      ∃ b', s'.binders[i]? = some b' ∧ b'.scheme = b.scheme) :
    Later F s s' where
  store := h.store.trans h'.store
  binders i b hi hb := by
    cases hb₁ : s₁.binders[i]? with
    | none => exact h'.binders i b (Array.getElem?_eq_none_iff.mp hb₁) hb
    | some b₁ =>
      obtain ⟨b', hb', hscheme⟩ := hkept i b₁ hb₁
      obtain rfl : b = b' := Option.some.inj (hb.symm.trans hb')
      exact hscheme ▸ (h.binders i b₁ hi hb₁).mono h'.store.size
  members m hm := by
    rcases h'.members m hm with hm | hm
    · exact (h.members m hm).imp_right fun hlive t ht => (hlive t ht).mono h'.store.size
    · exact .inr hm
  mentions m hm := (h'.mentions m hm).elim (h.mentions m) .inr
  declarations d hd := (h'.declarations d hd).elim (h.declarations d) .inr

/-- The types that variables, annotations and constructors lead to are live. -/
structure Sane (F : Nat → Prop) (s : CheckerState) : Prop where
  frozen : ∀ v, F v → v < s.store.size
  closed : Closed (Ty.Live F s.store.size) s.store
  typeVars : ∀ entry ∈ s.typeVars, entry.2.Live F s.store.size
  abbreviations : ∀ entry ∈ s.abbreviations, entry.2.Live F s.store.size
  constructors : ∀ e ∈ s.entities.all, ∀ o ∈ e.constructors, o.Live F s.store.size

theorem Sane.of_store (h : Sane F s) (hsize : s.store.size ≤ s'.store.size)
    (hclosed : Closed (Ty.Live F s'.store.size) s'.store) (htypeVars : s'.typeVars = s.typeVars)
    (habbreviations : s'.abbreviations = s.abbreviations) (hentities : s'.entities = s.entities) :
    Sane F s' :=
  ⟨fun v hv => Nat.lt_of_lt_of_le (h.frozen v hv) hsize, hclosed,
    fun entry hmem => (h.typeVars entry (htypeVars ▸ hmem)).mono hsize,
    fun entry hmem => (h.abbreviations entry (habbreviations ▸ hmem)).mono hsize,
    fun e he o ho => (h.constructors e (hentities ▸ he) o ho).mono hsize⟩

/-- A solution of what is bound so far. It does not bring in variables of `F`. -/
structure Solved (F : Nat → Prop) (σ : Solution) (s : CheckerState) : Prop where
  satisfies : Satisfies σ.type s.store
  named : ∀ name t, s.typeVars.lookup name = some t → σ.named name = t.subst σ.type
  apart : ∀ v, ¬F v → ∀ w ∈ (σ.type v).vars, ¬F w

theorem Solved.back {σ : Solution} (h : Solved F σ s') (hframe : Frame bound s s')
    (hlater : Later F s s') : Solved F σ s :=
  ⟨h.satisfies.of_develops hlater.store,
    fun name t ht => h.named name t (hframe.typeVars name t ht), h.apart⟩

end CheckerState

/-- What a part of the checker does. `pre` is needed, and `post` and the facts `Φ` about every solution
hold behind it, if it reports no error. -/
structure Step (F : Nat → Prop) (bound : List Nat) (s s' : CheckerState) (pre post : Prop)
    (Φ : Solution → Prop) : Prop where
  frame : s.Frame bound s'
  calm : pre → s'.alarms ≤ s.alarms → s.Sane F →
    s'.Sane F ∧ s.Later F s' ∧ post ∧ ∀ σ, s'.Solved F σ → Φ σ

namespace Step

open CheckerState

variable {F : Nat → Prop} {bound bound' : List Nat} {s s₁ s' : CheckerState}
variable {pre pre' post post' : Prop} {Φ Φ' : Solution → Prop}

theorem here (h : pre → s.Sane F → post ∧ ∀ σ, s.Solved F σ → Φ σ) : Step F [] s s pre post Φ :=
  ⟨.refl s, fun hpre _ hs => ⟨hs, .refl F s, h hpre hs⟩⟩

theorem done (h : pre → post) (hΦ : pre → ∀ σ, Φ σ) : Step F [] s s pre post Φ :=
  here fun hpre _ => ⟨h hpre, fun σ _ => hΦ hpre σ⟩

theorem cast (h : Step F bound s s' pre post Φ) (hbound : bound = bound') :
    Step F bound' s s' pre post Φ :=
  hbound ▸ h

theorem of_sane (h : Step F bound s s' (pre ∧ s.Sane F) post Φ) : Step F bound s s' pre post Φ :=
  ⟨h.frame, fun hpre hquiet hs => h.calm ⟨hpre, hs⟩ hquiet hs⟩

theorem next (h : Step F bound s s₁ pre' post' Φ') (hpre : pre → pre')
    (h' : Step F bound' s₁ s' (pre ∧ post') post fun σ => Φ' σ → Φ σ) :
    Step F (bound ++ bound') s s' pre post Φ := by
  refine ⟨h.frame.trans h'.frame, fun hp hquiet hs => ?_⟩
  obtain ⟨hs₁, hlater, hpost, hΦ⟩ := h.calm (hpre hp) (h'.frame.alarms.trans hquiet) hs
  obtain ⟨hs', hlater', hpost', hΦ'⟩ :=
    h'.calm ⟨hp, hpost⟩ (hquiet.trans h.frame.alarms) hs₁
  refine ⟨hs', hlater.trans hlater' fun i b hb => ?_, hpost', fun σ hσ => ?_⟩
  · obtain ⟨b', hb', -, hscheme⟩ := h'.frame.binders i b hb
    exact ⟨b', hb', hscheme⟩
  · exact hΦ' σ hσ (hΦ σ (hσ.back h'.frame hlater'))

theorem imp (h : Step F bound s s' pre' post' Φ') (hpre : pre → pre') (hpost : pre → post' → post)
    (hΦ : pre → post' → ∀ σ, Φ' σ → Φ σ) : Step F bound s s' pre post Φ := by
  refine ⟨h.frame, fun hp hquiet hs => ?_⟩
  obtain ⟨hs', hlater, hpost', hΦ'⟩ := h.calm (hpre hp) hquiet hs
  exact ⟨hs', hlater, hpost hp hpost', fun σ hσ => hΦ hp hpost' σ (hΦ' σ hσ)⟩

theorem restore (h : Step F bound s s' pre post Φ) :
    Step F [] s { s' with scope := s.scope } pre post Φ := by
  refine ⟨h.frame.restore, fun hpre hquiet hs => ?_⟩
  obtain ⟨hs', hlater, hpost, hΦ⟩ := h.calm hpre hquiet hs
  exact ⟨⟨hs'.frozen, hs'.closed, hs'.typeVars, hs'.abbreviations, hs'.constructors⟩,
    ⟨hlater.store, hlater.binders, hlater.members, hlater.mentions, hlater.declarations⟩, hpost,
    fun σ hσ => hΦ σ ⟨hσ.satisfies, hσ.named, hσ.apart⟩⟩

end Step

namespace Checker

open CheckerState

variable {α β : Type} (F : Nat → Prop)

def Yields (p : Checker α) (s : CheckerState) (Q : α → CheckerState → Prop) : Prop :=
  Q (p.run s).1 (p.run s).2

theorem Yields.mono {p : Checker α} {s : CheckerState} {Q R : α → CheckerState → Prop}
    (h : p.Yields s Q) (hQR : ∀ a s', Q a s' → R a s') : p.Yields s R :=
  hQR _ _ h

theorem Yields.and {p : Checker α} {s : CheckerState} {Q R : α → CheckerState → Prop}
    (hQ : p.Yields s Q) (hR : p.Yields s R) : p.Yields s fun a s' => Q a s' ∧ R a s' :=
  ⟨hQ, hR⟩

theorem Yields.bind {p : Checker α} {f : α → Checker β} {s : CheckerState}
    {Q : α → CheckerState → Prop} {R : β → CheckerState → Prop} (h : p.Yields s Q)
    (hf : ∀ a s', Q a s' → (f a).Yields s' R) : (p >>= f).Yields s R :=
  hf _ _ h

theorem yields_bind (p : Checker α) (f : α → Checker β) (s : CheckerState)
    (Q : β → CheckerState → Prop) :
    Yields (p >>= f) s Q ↔ p.Yields s fun a s' => (f a).Yields s' Q :=
  Iff.rfl

theorem yields_pure (a : α) (s : CheckerState) (Q : α → CheckerState → Prop) :
    Yields (pure a) s Q ↔ Q a s :=
  Iff.rfl

theorem yields_map (f : α → β) (p : Checker α) (s : CheckerState)
    (Q : β → CheckerState → Prop) : Yields (f <$> p) s Q ↔ p.Yields s fun a => Q (f a) :=
  Iff.rfl

theorem yields_get (s : CheckerState) (Q : CheckerState → CheckerState → Prop) :
    Yields get s Q ↔ Q s s :=
  Iff.rfl

theorem yields_set (s s' : CheckerState) (Q : PUnit → CheckerState → Prop) :
    Yields (set s') s Q ↔ Q ⟨⟩ s' :=
  Iff.rfl

theorem yields_modify (f : CheckerState → CheckerState) (s : CheckerState)
    (Q : PUnit → CheckerState → Prop) : Yields (modify f) s Q ↔ Q ⟨⟩ (f s) :=
  Iff.rfl

theorem yields_fresh (s : CheckerState) (Q : Ty → CheckerState → Prop) :
    Yields fresh s Q ↔ Q s.store.fresh.1 { s with store := s.store.fresh.2 } :=
  Iff.rfl

theorem yields_unify (a b : Ty) (s : CheckerState) (Q : Bool → CheckerState → Prop) :
    Yields (unify a b) s Q ↔ Q (s.store.unify a b).1
      { s.demand .variable (s.store.unifyInside a b) with store := (s.store.unify a b).2 } :=
  Iff.rfl

theorem yields_unifies (a b : Ty) (s : CheckerState) (Q : Bool → CheckerState → Prop) :
    Yields (unifies a b) s Q ↔
      Q (s.store.unifies a b) (s.demand .variable (s.store.unifyInside a b)) :=
  Iff.rfl

theorem yields_binderAt (index : Nat) (s : CheckerState) (Q : Option Binder → CheckerState → Prop) :
    Yields (binderAt? index) s Q ↔
      Q s.binders[index]? (s.demand .binder (index < s.binders.size)) :=
  Iff.rfl

theorem yields_readScope (s : CheckerState) (Q : Unit → CheckerState → Prop) :
    Yields readScope s Q ↔ Q () s.readScope :=
  Iff.rfl

theorem yields_instantiate (scheme : Scheme) (s : CheckerState) (Q : Ty → CheckerState → Prop) :
    Yields (instantiate scheme) s Q ↔
      Q (s.store.instantiate scheme).1 { s with store := (s.store.instantiate scheme).2 } :=
  Iff.rfl

theorem yields_report (cause : TypeError.Cause) (span : Span) (s : CheckerState)
    (Q : Unit → CheckerState → Prop) :
    Yields (report cause span) s Q ↔
      Q () { s with records.errors := ⟨cause, span⟩ :: s.records.errors } :=
  Iff.rfl

theorem yields_shallow (t : Ty) (s : CheckerState) (Q : Ty → CheckerState → Prop) :
    Yields (shallow t) s Q ↔ Q (s.store.shallow t) s :=
  Iff.rfl

theorem yields_zonk (t : Ty) (s : CheckerState) (Q : Ty → CheckerState → Prop) :
    Yields (zonk t) s Q ↔ Q (s.store.zonk t) s :=
  Iff.rfl

/-! Types -/

section Store

variable {s : CheckerState} {store : TypeStore} {faults : List Fault}

variable {F} in
theorem step_of_store {pre post : Prop} {Φ : Solution → Prop} (hsize : s.store.size ≤ store.size)
    (h : pre → s.Sane F → Closed (Ty.Live F store.size) store ∧ Develops F s.store store ∧ post ∧
      ∀ σ, Satisfies σ.type store → Φ σ) :
    Step F [] s { s with store, faults } pre post Φ := by
  refine ⟨⟨Nat.le_refl _, hsize, rfl, rfl, rfl, fun _ _ h => h, fun _ b h => ⟨b, h, rfl, rfl⟩, nofun⟩,
    fun hpre _ hs => ?_⟩
  obtain ⟨hclosed, hdevelops, hpost, hΦ⟩ := h hpre hs
  exact ⟨hs.of_store hsize hclosed rfl rfl rfl, .of_store hdevelops rfl rfl, hpost,
    fun σ hσ => hΦ σ hσ.satisfies⟩

theorem demand_step (fault : Fault) (inside : Bool) (s : CheckerState) :
    Step F [] s (s.demand fault inside) True True fun _ => True :=
  step_of_store (Nat.le_refl _) fun _ hs => ⟨hs.closed, .refl F s.store, trivial, fun _ _ => trivial⟩

theorem fresh_step (s : CheckerState) : fresh.Yields s fun t s' =>
    Step F [] s s' True (t.Live F s'.store.size) fun _ => True := by
  have hsize : s.store.fresh.2.size = s.store.size + 1 := s.store.size_fresh
  rw [yields_fresh]
  refine step_of_store (by omega) fun _ hs => ⟨?_, ?_, ?_, fun _ _ => trivial⟩
  · rw [hsize]
    exact TypeStore.closed_extend hs.closed 1
  · exact TypeStore.develops_extend s.store 1
  · exact Ty.live_var.mpr ⟨by rw [hsize]; omega, fun hF => Nat.lt_irrefl _ (hs.frozen _ hF)⟩

theorem unify_step (a b : Ty) (s : CheckerState) : (unify a b).Yields s fun ok s' =>
    Step F [] s s' (a.Live F s.store.size ∧ b.Live F s.store.size) True fun σ =>
      ok = true → a.subst σ.type = b.subst σ.type :=
  step_of_store (Nat.le_of_eq (TypeStore.size_unify _ a b).symm) fun ⟨ha, hb⟩ hs =>
    ⟨TypeStore.closed_unify hs.closed ha hb, TypeStore.develops_unify hs.closed ha hb, trivial,
      fun _ hσ hok => TypeStore.unify_sound hs.closed ha hb hok hσ⟩

theorem instantiate_step (scheme : Scheme) (s : CheckerState) :
    (instantiate scheme).Yields s fun t s' =>
      Step F [] s s' (scheme.Live F s.store.size) (t.Live F s'.store.size) fun σ =>
        t.subst σ.type = scheme.type.subst fun v =>
          (scheme.vars.idxOf? v).elim (σ.type v) fun i => σ.type (s.store.size + i) := by
  have hsize : (s.store.instantiate scheme).2.size = s.store.size + scheme.vars.length :=
    s.store.size_extend _
  rw [yields_instantiate]
  refine step_of_store (by omega) fun hscheme hs => ⟨?_, ?_, ?_, fun σ _ => ?_⟩
  · rw [hsize]
    exact TypeStore.closed_extend hs.closed _
  · exact TypeStore.develops_extend s.store _
  · rw [hsize]
    exact TypeStore.live_instantiate hs.frozen hscheme
  · refine (Ty.subst_subst _ _ _).trans (congrArg (scheme.type.subst ·) (funext fun v => ?_))
    cases scheme.vars.idxOf? v <;> rfl

end Store

/-! Records -/

section Records

variable {s : CheckerState}

variable {F} in
theorem step_of_records {pre : Prop} {records : CheckerRecords}
    (herrors : records.errors = s.records.errors)
    (h : pre → s.Sane F → s.Later F { s with records }) :
    Step F [] s { s with records } pre True fun _ => True := by
  refine ⟨⟨?_, Nat.le_refl _, rfl, rfl, rfl, fun _ _ h => h, fun _ b h => ⟨b, h, rfl, rfl⟩, nofun⟩,
    fun hpre _ hs => ⟨?_, h hpre hs, trivial, fun _ _ => trivial⟩⟩
  · simp [CheckerState.alarms, herrors]
  · exact ⟨hs.frozen, hs.closed, hs.typeVars, hs.abbreviations, hs.constructors⟩

theorem report_step (cause : TypeError.Cause) (span : Span) (s : CheckerState)
    (h : cause.isWarning = false) :
    (report cause span).Yields s fun _ s' => Step F [] s s' True False fun _ => True := by
  rw [yields_report]
  have halarms : CheckerState.alarms { s with records.errors := ⟨cause, span⟩ :: s.records.errors } =
      s.alarms + 1 := by
    simp [CheckerState.alarms, h]
  refine ⟨⟨?_, Nat.le_refl _, rfl, rfl, rfl, fun _ _ h => h, fun _ b h => ⟨b, h, rfl, rfl⟩, nofun⟩,
    fun _ hquiet _ => ?_⟩
  · exact halarms ▸ Nat.le_succ _
  · exact absurd (halarms ▸ hquiet) (Nat.not_succ_le_self _)

theorem warn_step (cause : TypeError.Cause) (span : Span) (s : CheckerState)
    (h : cause.isWarning = true) : (report cause span).Yields s fun _ s' =>
      Step F [] s s' True True fun _ => True := by
  rw [yields_report]
  refine ⟨⟨?_, Nat.le_refl _, rfl, rfl, rfl, fun _ _ h => h, fun _ b h => ⟨b, h, rfl, rfl⟩, nofun⟩,
    fun _ _ hs => ⟨?_, ?_, trivial, fun _ _ => trivial⟩⟩
  · simp [CheckerState.alarms, h]
  · exact ⟨hs.frozen, hs.closed, hs.typeVars, hs.abbreviations, hs.constructors⟩
  · exact ⟨.refl F _, (Later.refl F s).binders, fun _ h => .inl h, fun _ h => .inl h, fun _ h => .inl h⟩

theorem mention_step (span : Span) (target : Target) (s : CheckerState) :
    (mention span target).Yields s fun _ s' =>
      Step F [] s s' target.ErrorFree True fun _ => True := by
  refine step_of_records rfl fun h _ => ⟨.refl F _, (Later.refl F s).binders, fun _ h => .inl h, ?_,
    fun _ h => .inl h⟩
  intro m hm
  rcases List.mem_cons.mp hm with rfl | hm
  · exact .inr h
  · exact .inl hm

theorem declare_step (span : Span) (target : Target) (s : CheckerState) :
    (declare span target).Yields s fun _ s' =>
      Step F [] s s' target.ErrorFree True fun _ => True := by
  refine step_of_records rfl fun h _ => ⟨.refl F _, (Later.refl F s).binders, fun _ h => .inl h, ?_, ?_⟩
  · intro m hm
    rcases List.mem_cons.mp hm with rfl | hm
    · exact .inr h
    · exact .inl hm
  · intro d hd
    rcases List.mem_cons.mp hd with rfl | hd
    · exact .inr h
    · exact .inl hd

theorem recordMember_step (site : MemberSite) (s : CheckerState) :
    (recordMember site).Yields s fun _ s' =>
      Step F [] s s' (∀ t, site.receiver = .value t → t.Live F s.store.size) True fun _ => True := by
  refine step_of_records rfl fun h _ => ⟨.refl F _, (Later.refl F s).binders, ?_, fun _ h => .inl h,
    fun _ h => .inl h⟩
  intro m hm
  rcases List.mem_cons.mp hm with rfl | hm
  · exact .inr h
  · exact .inl hm

theorem recordCall_step (site : CallSite) (s : CheckerState) :
    (recordCall site).Yields s fun _ s' => Step F [] s s' True True fun _ => True :=
  step_of_records rfl fun _ _ => ⟨.refl F _, (Later.refl F s).binders, fun _ h => .inl h,
    fun _ h => .inl h, fun _ h => .inl h⟩

end Records

theorem expect_step (expected found : Ty) (span : Span) (s : CheckerState) :
    (expect expected found span).Yields s fun _ s' =>
      Step F [] s s' (expected.Live F s.store.size ∧ found.Live F s.store.size) True fun σ =>
        expected.subst σ.type = found.subst σ.type := by
  refine (unify_step F expected found s).bind fun ok s₁ h => ?_
  cases ok with
  | true => exact h.imp id (fun _ => id) fun _ _ _ hσ => hσ rfl
  | false =>
    simp only [Bool.false_eq_true, if_false, yields_bind, yields_zonk]
    refine (report_step F _ span s₁ rfl).mono fun _ s₂ h₂ => ?_
    exact h.next id (h₂.imp (fun _ => trivial) (fun _ => False.elim) fun _ => False.elim)

variable {F} in
theorem withScope_step {p : Checker α} {s : CheckerState} {pre : Prop}
    {post : α → CheckerState → Prop} {Φ : α → Solution → Prop}
    (h : p.Yields s fun a s' => ∃ bound, Step F bound s s' pre (post a s') (Φ a))
    (hpost : ∀ a s' scope, post a s' → post a { s' with scope }) :
    (withScope p).Yields s fun a s' => Step F [] s s' pre (post a s') (Φ a) := by
  simp only [withScope, yields_bind, yields_get, yields_modify, yields_pure]
  refine h.mono fun a s₁ h₁ => ?_
  obtain ⟨bound, h₁⟩ := h₁
  exact h₁.restore.imp id (fun _ => hpost a s₁ _) fun _ _ _ => id

/-! What longer functions end with. -/

/-- The use of a binder behind its mention. -/
def binderUse (index : Nat) : Checker Callee := do
  match ← binderAt? index with
  | none => return .value .error
  | some binder =>
    let t ← zonk binder.scheme.type
    let signatures := (bindingSignature? t binder.params).toList
    return .value (← instantiate binder.scheme) signatures

/-- The parameters from `p` on, which has the type `t`. -/
def bindParamsFrom (visible : Span) (p : Pattern) (ps : List Pattern) (t : Ty) (result? : Option Ty) :
    Checker (List Ty × Option Ty) := do
  let _ ← bindPattern visible false p t
  let (ts, result?) ← bindParams visible ps result?
  return (t :: ts, result?)

/-- A function expression behind the head of its expected type. -/
def lambdaFrom (visible : Span) (params : List Pattern) (body : Option Ty → Checker Callee)
    (expected : Option Ty) : Checker Callee := do
  let (ts, result?) ← bindParams visible params expected
  let ret ← match result? with
    | some t => pure t
    | none => fresh
  let _ ← body (some ret)
  return .value (.curried ts ret)

end Checker

end ScriptAnalyzer

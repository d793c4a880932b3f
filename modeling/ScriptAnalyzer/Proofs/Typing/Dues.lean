import ScriptAnalyzer.Proofs.Typing.Declared
import ScriptAnalyzer.Proofs.Typing.Roots

/-!
What checking a tree has to put on record: each name that is used, as a name looked up or as one that is
missing, each name that is bound, and each call. The records are compared at one place of the text, and
what happens at other places is left out.
-/

namespace ScriptAnalyzer

inductive Due where
  | use (name : Ident)
  | bound (name : Ident)
  | call (callee parens : Span)
deriving DecidableEq

namespace Due

def isUseAt (x : Span) : Due → Bool
  | use n => n.span == x
  | _ => false

def isBoundAt (x : Span) : Due → Bool
  | bound n => n.span == x
  | _ => false

def call? : Due → Option (Span × Span)
  | call callee parens => some (callee, parens)
  | _ => none

theorem calls_bound (ns : List Ident) : (ns.map bound).filterMap call? = [] :=
  List.filterMap_eq_nil_iff.mpr fun _ hd => by
    obtain ⟨n, -, rfl⟩ := List.mem_map.mp hd
    rfl

end Due

namespace CheckerState

variable {x : Span} {dues dues' : List Due} {s s₁ s' : CheckerState}

/-- How often a name is looked up at the place. -/
def usesAt (s : CheckerState) (x : Span) : Nat :=
  s.records.mentions.countP fun m => !m.isDefinition && m.span == x

/-- How often a name is declared at the place. -/
def definitionsAt (s : CheckerState) (x : Span) : Nat :=
  s.records.mentions.countP fun m => m.isDefinition && m.span == x

/-- How often a name is missing at the place. -/
def missesAt (s : CheckerState) (x : Span) : Nat :=
  (s.records.errors.filter TypeError.isMiss).countP (·.span == x)

def callPlaces (s : CheckerState) : List (Span × Span) := s.records.calls.map fun c => (c.callee, c.parens)

/-- The binders that are mentioned are there. -/
def Grounded (s : CheckerState) : Prop :=
  ∀ m ∈ s.records.mentions, ∀ i, m.target = .binder i → i < s.binders.size

/-- From `s` to `s'` the dues are put on record, each once, as far as the place `x` can tell. A name in
front of a dot is found only if the paths of the entities lead through entities. -/
structure Discharges (x : Span) (dues : List Due) (s s' : CheckerState) : Prop where
  uses : s'.usesAt x ≤ s.usesAt x + dues.countP (·.isUseAt x)
  misses : s'.missesAt x ≤ s.missesAt x + dues.countP (·.isUseAt x)
  accounts : s.Rooted → s.usesAt x + s.missesAt x + dues.countP (·.isUseAt x) ≤ s'.usesAt x + s'.missesAt x
  definitions : s.definitionsAt x + dues.countP (·.isBoundAt x) ≤ s'.definitionsAt x
  declared : s'.definitionsAt x + s.declaredAt.count x = s.definitionsAt x + s'.declaredAt.count x
  calls : s'.callPlaces.Perm (dues.filterMap Due.call? ++ s.callPlaces)
  size : s.binders.size ≤ s'.binders.size
  grounded : s.Grounded → s'.Grounded

namespace Discharges

theorem refl (x : Span) (s : CheckerState) : Discharges x [] s s :=
  ⟨Nat.le_refl _, Nat.le_refl _, fun _ => Nat.le_refl _, Nat.le_refl _, rfl, .refl _, Nat.le_refl _, id⟩

theorem trans (h : Discharges x dues s s₁) (hrooted : s.Rooted → s₁.Rooted)
    (h' : Discharges x dues' s₁ s') : Discharges x (dues ++ dues') s s' where
  uses := by
    rw [List.countP_append]
    exact Nat.le_trans h'.uses (by have := h.uses; omega)
  misses := by
    rw [List.countP_append]
    exact Nat.le_trans h'.misses (by have := h.misses; omega)
  accounts hs := by
    rw [List.countP_append]
    exact Nat.le_trans (by have := h.accounts hs; omega) (h'.accounts (hrooted hs))
  definitions := by
    rw [List.countP_append]
    exact Nat.le_trans (by have := h.definitions; omega) h'.definitions
  declared := by
    have := h.declared
    have := h'.declared
    omega
  calls := by
    rw [List.filterMap_append]
    refine h'.calls.trans ((h.calls.append_left _).trans ?_)
    rw [← List.append_assoc]
    exact List.perm_append_comm.append_right _
  size := Nat.le_trans h.size h'.size
  grounded := h'.grounded ∘ h.grounded

/-- In which order the dues are listed makes no difference. -/
theorem perm (h : Discharges x dues s s') (hdues : dues.Perm dues') : Discharges x dues' s s' where
  uses := hdues.countP_eq _ ▸ h.uses
  misses := hdues.countP_eq _ ▸ h.misses
  accounts := hdues.countP_eq _ ▸ h.accounts
  definitions := hdues.countP_eq _ ▸ h.definitions
  declared := h.declared
  calls := h.calls.trans ((hdues.filterMap _).append_right _)
  size := h.size
  grounded := h.grounded

theorem missesAt_ledger (x : Span) (s : CheckerState) : s.ledger.missesAt x = s.missesAt x := by
  have hmiss (e : TypeError) : (e.isMiss && (e.isMiss || e.isUnused)) = e.isMiss := by
    cases e.isMiss <;> rfl
  simp [missesAt, ledger, List.filter_filter, hmiss]

/-- The ledger tells what was put on record. -/
theorem of_ledger (h : Discharges x dues s s₁) (hledger : s'.ledger = s₁.ledger) :
    Discharges x dues s s' := by
  have hshown : Discharges x dues s s'.ledger := by
    rw [hledger]
    exact { h with
      misses := missesAt_ledger x s₁ ▸ h.misses
      accounts := (missesAt_ledger x s₁).symm ▸ h.accounts }
  exact { hshown with
    misses := missesAt_ledger x s' ▸ hshown.misses
    accounts := by
      have := hshown.accounts
      rwa [missesAt_ledger] at this }

/-- A name that would be there is not. -/
theorem unrooted (x : Span) (n : Ident) (hs : ¬s.Rooted) : Discharges x [.use n] s s :=
  { refl x s with
    uses := Nat.le_add_right _ _
    misses := Nat.le_add_right _ _
    accounts := fun hrooted => absurd hrooted hs }

/-! One record more -/

/-- A name is looked up. -/
theorem of_mention {n : Ident} {target : Target}
    (hmentions : s'.records.mentions = ⟨n.span, target, false⟩ :: s.records.mentions)
    (herrors : s'.records.errors = s.records.errors)
    (hdeclarations : s'.records.declarations = s.records.declarations)
    (hcalls : s'.records.calls = s.records.calls) (hsize : s'.binders.size = s.binders.size)
    (htarget : ∀ i, target = .binder i → i < s.binders.size) : Discharges x [.use n] s s' where
  uses := by simp [usesAt, hmentions, Due.isUseAt, List.countP_cons]
  misses := by simp [missesAt, herrors]
  accounts _ := by
    simp only [usesAt, missesAt, hmentions, herrors, Due.isUseAt, List.countP_cons, List.countP_nil,
      Bool.not_false, Bool.true_and]
    omega
  definitions := by simp [definitionsAt, hmentions, Due.isBoundAt]
  declared := by simp [definitionsAt, declaredAt, hmentions, hdeclarations]
  calls := by
    rw [callPlaces, hcalls]
    exact .refl _
  size := Nat.le_of_eq hsize.symm
  grounded h := by
    rw [Grounded, hmentions, hsize]
    exact List.forall_mem_cons.mpr ⟨htarget, h⟩

theorem note (x : Span) (n : Ident) (symbol : Symbol) (s : CheckerState) :
    Discharges x [.use n] s (s.note n.span symbol) :=
  .of_mention rfl rfl rfl rfl rfl nofun

theorem use (x : Span) (n : Ident) {i : Nat} (hi : i < s.binders.size) :
    Discharges x [.use n] s (s.useBinder i n.span) :=
  .of_mention rfl rfl rfl rfl Array.size_modify fun _ hj => Target.binder.inj hj ▸ hi

/-- A name that was not missing so far is missing. -/
theorem report {n : Ident} (h : Discharges x [.use n] s s₁) (hfirst : s₁.missesAt x = s.missesAt x)
    (cause : TypeError.Cause) : Discharges x [.use n] s
      { s₁ with records.errors := ⟨cause, n.span⟩ :: s₁.records.errors } := by
  have hmore : missesAt { s₁ with records.errors := ⟨cause, n.span⟩ :: s₁.records.errors } x ≤
      s.missesAt x + [Due.use n].countP (·.isUseAt x) ∧ s₁.missesAt x ≤
        missesAt { s₁ with records.errors := ⟨cause, n.span⟩ :: s₁.records.errors } x := by
    rw [← hfirst]
    simp only [missesAt, List.filter_cons]
    split <;> simp [List.countP_cons, Due.isUseAt]
  exact { h with
    misses := hmore.1
    accounts := fun hs => Nat.le_trans (h.accounts hs) (Nat.add_le_add_left hmore.2 _) }

theorem miss (x : Span) (n : Ident) {cause : TypeError.Cause} (hcause : cause.code = "E0039")
    (s : CheckerState) : Discharges x [.use n] s
      { s with records.errors := ⟨cause, n.span⟩ :: s.records.errors } := by
  have hmiss : TypeError.isMiss ⟨cause, n.span⟩ = true := by simp [TypeError.isMiss, hcause]
  refine { refl x s with uses := Nat.le_add_right _ _, misses := ?_, accounts := fun _ => ?_ }
  all_goals
    simp only [missesAt, usesAt, List.filter_cons, hmiss, if_true, List.countP_cons, List.countP_nil,
      Due.isUseAt]
    omega

/-- A due at another place. -/
theorem elsewhere {n : Ident} (h : Discharges x [.use n] s s') (hn : n.span ≠ x) :
    Discharges x [] s s' := by
  have hnone : [Due.use n].countP (·.isUseAt x) = ([] : List Due).countP (·.isUseAt x) := by
    simp [Due.isUseAt, hn]
  exact { h with
    uses := hnone ▸ h.uses
    misses := hnone ▸ h.misses
    accounts := hnone ▸ h.accounts }

theorem enter (x : Span) {n : Ident} {b : Binder} (hspan : b.span = n.span) (visible : Span)
    (s : CheckerState) : Discharges x [.bound n] s (s.enter b visible) where
  uses := by simp [usesAt, CheckerState.enter]
  misses := Nat.le_refl _
  accounts _ := by simp [usesAt, missesAt, CheckerState.enter, Due.isUseAt]
  definitions := by simp [definitionsAt, CheckerState.enter, Due.isBoundAt, hspan, List.countP_cons]
  declared := by
    simp only [definitionsAt, declaredAt, CheckerState.enter, List.countP_cons, List.map_cons,
      List.count_cons, Bool.true_and]
    omega
  calls := .refl _
  size := by simp [CheckerState.enter]
  grounded h := by
    simp only [Grounded, CheckerState.enter, Array.size_push]
    refine List.forall_mem_cons.mpr ⟨fun j hj => ?_, fun m hm j hj => ?_⟩
    · exact Target.binder.inj hj ▸ Nat.lt_succ_self _
    · exact Nat.lt_succ_of_lt (h m hm j hj)

/-- What is no binder is declared. -/
theorem declareAt (x span : Span) (symbol : Symbol) (s : CheckerState) :
    Discharges x [] s (s.declareAt span (.fixed symbol)) where
  uses := by simp [usesAt, CheckerState.declareAt]
  misses := Nat.le_refl _
  accounts _ := by simp [usesAt, missesAt, CheckerState.declareAt]
  definitions := by simp [definitionsAt, CheckerState.declareAt, List.countP_cons]
  declared := by
    simp only [definitionsAt, declaredAt, CheckerState.declareAt, List.countP_cons, List.map_cons,
      List.count_cons, Bool.true_and]
    omega
  calls := .refl _
  size := Nat.le_refl _
  grounded h := List.forall_mem_cons.mpr ⟨nofun, h⟩

theorem call (x : Span) (site : CallSite) (s : CheckerState) :
    Discharges x [.call site.callee site.parens] s
      { s with records.calls := site :: s.records.calls } :=
  { refl x s with calls := .refl _ }

end Discharges

/-- What names are looked up in stays as it is. -/
structure Stays (s s' : CheckerState) : Prop where
  entities : s'.entities = s.entities
  opens : s'.scope.opens = s.scope.opens
  modulePath : s'.scope.modulePath = s.scope.modulePath

namespace Stays

theorem refl (s : CheckerState) : s.Stays s := ⟨rfl, rfl, rfl⟩

theorem trans (h : s.Stays s₁) (h' : s₁.Stays s') : s.Stays s' :=
  ⟨h'.entities.trans h.entities, h'.opens.trans h.opens, h'.modulePath.trans h.modulePath⟩

theorem of_ledger (h : s'.ledger = s.ledger) : s.Stays s' :=
  have hscope : s'.scope = s.scope := show s'.ledger.scope = s.ledger.scope from h ▸ rfl
  ⟨show s'.ledger.entities = s.ledger.entities from h ▸ rfl, hscope ▸ rfl, hscope ▸ rfl⟩

theorem rooted (h : s.Stays s') (hs : s.Rooted) : s'.Rooted :=
  hs.of_same h.entities h.opens h.modulePath

end Stays
end CheckerState

namespace Checker

open CheckerState

variable {α β : Type} {x : Span} {dues dues' : List Due} {p : Checker α} {f : α → Checker β}

/-- The checker puts the dues on record, and leaves what names are looked up in as it is. -/
def Pays (p : Checker α) (x : Span) (dues : List Due) : Prop :=
  ∀ s, p.Yields s fun _ s' => s.Discharges x dues s' ∧ s.Stays s'

theorem Pays.bind (hp : p.Pays x dues) (hf : ∀ a, (f a).Pays x dues') :
    (p >>= f).Pays x (dues ++ dues') := fun s =>
  (hp s).bind fun a s₁ h₁ => (hf a s₁).mono fun _ _ h₂ =>
    ⟨h₁.1.trans h₁.2.rooted h₂.1, h₁.2.trans h₂.2⟩

theorem Pays.perm (hp : p.Pays x dues) (hdues : dues.Perm dues') : p.Pays x dues' := fun s =>
  (hp s).mono fun _ _ h => ⟨h.1.perm hdues, h.2⟩

theorem Silent.pays (hp : Silent p) : p.Pays x [] := fun s =>
  (hp s).mono fun _ _ h => ⟨(Discharges.refl x s).of_ledger h, .of_ledger h⟩

theorem Pays.andThen (hp : p.Pays x dues) (hf : ∀ a, Silent (f a)) : (p >>= f).Pays x dues := by
  simpa using hp.bind fun a => (hf a).pays

theorem Silent.before (hp : Silent p) (hf : ∀ a, (f a).Pays x dues) : (p >>= f).Pays x dues :=
  hp.pays.bind hf

theorem Pays.getBind {f : CheckerState → Checker β} (hf : ∀ s, (f s).Pays x dues) :
    (get >>= f).Pays x dues :=
  fun s => hf s s

/-- A silent part behind what puts the dues on record. -/
theorem Silent.keepsDues {s s₁ : CheckerState} (hp : Silent p)
    (h : s.Discharges x dues s₁ ∧ s.Stays s₁) :
    p.Yields s₁ fun _ s' => s.Discharges x dues s' ∧ s.Stays s' :=
  (hp s₁).mono fun _ _ h' => ⟨h.1.of_ledger h', h.2.trans (.of_ledger h')⟩

theorem Pays.behind {s s₁ : CheckerState} (hp : p.Pays x dues) (h : s₁.ledger = s.ledger) :
    p.Yields s₁ fun _ s' => s.Discharges x dues s' ∧ s.Stays s' := by
  have hstays : s.Stays s₁ := .of_ledger h
  exact (hp s₁).mono fun _ _ h' =>
    ⟨((Discharges.refl x s).of_ledger h).trans hstays.rooted h'.1, hstays.trans h'.2⟩

/-- What is done inside a construct is out of scope behind it. -/
theorem Pays.withScope (hp : p.Pays x dues) : (withScope p).Pays x dues := by
  intro s
  simp only [Checker.withScope, yields_bind, yields_get, yields_modify, yields_pure]
  exact (hp s).mono fun _ _ h => ⟨{ h.1 with }, ⟨h.2.entities, rfl, rfl⟩⟩

end Checker
end ScriptAnalyzer

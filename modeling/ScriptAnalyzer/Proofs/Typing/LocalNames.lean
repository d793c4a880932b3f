import ScriptAnalyzer.Proofs.Typing.NameDues

/-!
What the names that are bound inside of expressions leave behind: they come into scope and go out of it
again, a binder is marked as used whenever a name is found to mean it, and when it goes out of scope it is
warned about unless it was used. Around it, expressions change nothing.
-/

namespace ScriptAnalyzer

/-- Whether the name says that it is not meant to be used. -/
def isUnderscored (name : String) : Bool := name.toList.head? == some '_'

/-- The warning that the binder is not used, if it is to be given. -/
def Binder.warning? (b : Binder) : Option TypeError :=
  if b.used || isUnderscored b.simpleName then none else some ⟨.unused b.simpleName, b.span⟩

namespace CheckerState

variable {s s₁ s' : CheckerState} {ns ns' : List Ident} {is is' : List Nat}

/-- A name was found to mean the binder with this number. -/
def Uses (s : CheckerState) (i : Nat) : Prop :=
  ∃ m ∈ s.records.mentions, m.target = .binder i ∧ m.isDefinition = false

/-- The binders that are in scope or mentioned are there, and those that are used are marked. -/
structure Marked (s : CheckerState) : Prop where
  scope : ∀ i ∈ s.scope.binders, i < s.binders.size
  grounded : s.Grounded
  used : ∀ (i : Nat) (b : Binder), s.binders[i]? = some b → (b.used = true ↔ s.Uses i)

namespace Marked

theorem of_same (h : s.Marked) (hbinders : s'.binders = s.binders)
    (hscope : s'.scope.binders = s.scope.binders)
    (hmentions : s'.records.mentions = s.records.mentions) : s'.Marked where
  scope i hi := hbinders ▸ h.scope i (hscope ▸ hi)
  grounded := by
    rw [Grounded, hmentions, hbinders]
    exact h.grounded
  used i b hb := by
    rw [Uses, hmentions]
    exact h.used i b (hbinders ▸ hb)

theorem of_ledger (h : s.Marked) (hledger : s'.ledger = s.ledger) : s'.Marked := by
  have hscope : s'.scope = s.scope := show s'.ledger.scope = s.ledger.scope from hledger ▸ rfl
  refine h.of_same ?_ (congrArg _ hscope) ?_
  · exact show s'.ledger.binders = s.ledger.binders from hledger ▸ rfl
  · exact show s'.ledger.records.mentions = s.ledger.records.mentions from hledger ▸ rfl

/-- Mentioning what is no binder uses none. -/
theorem mention (h : s.Marked) {span : Span} {symbol : Symbol} {isDefinition : Bool}
    (hmentions : s'.records.mentions = ⟨span, .fixed symbol, isDefinition⟩ :: s.records.mentions)
    (hbinders : s'.binders = s.binders) (hscope : s'.scope.binders = s.scope.binders) : s'.Marked where
  scope := by
    rw [hscope, hbinders]
    exact h.scope
  grounded := by
    rw [Grounded, hmentions, hbinders]
    exact List.forall_mem_cons.mpr ⟨by simp, h.grounded⟩
  used i b hb := by
    have hsame : s'.Uses i ↔ s.Uses i := by simp [Uses, hmentions]
    exact (h.used i b (hbinders ▸ hb)).trans hsame.symm

theorem useBinder (h : s.Marked) {index : Nat} (hindex : index < s.binders.size) (span : Span) :
    (s.useBinder index span).Marked where
  scope i hi := by
    rw [CheckerState.useBinder, Array.size_modify]
    exact h.scope i hi
  grounded := by
    simp only [Grounded, CheckerState.useBinder, Array.size_modify]
    exact List.forall_mem_cons.mpr ⟨fun i hi => Target.binder.inj hi ▸ hindex, h.grounded⟩
  used i b hb := by
    simp only [CheckerState.useBinder, Array.getElem?_modify] at hb
    by_cases hi : index = i
    · subst hi
      rw [if_pos rfl] at hb
      obtain ⟨b, -, rfl⟩ := Option.map_eq_some_iff.mp hb
      exact iff_of_true rfl ⟨_, List.mem_cons_self, rfl, rfl⟩
    · rw [if_neg hi] at hb
      have hsame : (s.useBinder index span).Uses i ↔ s.Uses i := by
        simp [Uses, CheckerState.useBinder, hi]
      exact (h.used i b hb).trans hsame.symm

/-- A new binder is not used, as nothing meant it before. -/
theorem enter (h : s.Marked) {b : Binder} (hb : b.used = false) (visible : Span) :
    (s.enter b visible).Marked where
  scope := by
    simp only [CheckerState.enter, Array.size_push]
    exact List.forall_mem_cons.mpr
      ⟨Nat.lt_succ_self _, fun i hi => Nat.lt_succ_of_lt (h.scope i hi)⟩
  grounded := by
    simp only [Grounded, CheckerState.enter, Array.size_push]
    refine List.forall_mem_cons.mpr ⟨fun i hi => ?_, fun m hm i hi => ?_⟩
    · exact Target.binder.inj hi ▸ Nat.lt_succ_self _
    · exact Nat.lt_succ_of_lt (h.grounded m hm i hi)
  used i b' hb' := by
    have hsame : (s.enter b visible).Uses i ↔ s.Uses i := by
      simp [Uses, CheckerState.enter]
    rw [hsame]
    simp only [CheckerState.enter, Array.getElem?_push] at hb'
    split at hb'
    case isTrue hi =>
      obtain rfl := Option.some.inj hb'
      refine iff_of_false (by simp [hb]) ?_
      rintro ⟨m, hm, htarget, -⟩
      exact absurd (h.grounded m hm i htarget) (by omega)
    case isFalse => exact h.used i b' hb'

theorem rebind (h : s.Marked) (index : Nat) (scheme : Scheme) :
    Marked { s.demand .binder (index < s.binders.size) with
      binders := s.binders.modify index fun b => { b with scheme } } where
  scope i hi := Nat.lt_of_lt_of_eq (h.scope i hi) Array.size_modify.symm
  grounded m hm i hi := Nat.lt_of_lt_of_eq (h.grounded m hm i hi) Array.size_modify.symm
  used i b hb := by
    simp only [Array.getElem?_modify] at hb
    split at hb
    · obtain ⟨b₀, hb₀, rfl⟩ := Option.map_eq_some_iff.mp hb
      exact h.used i b₀ hb₀
    · exact h.used i b hb

theorem leave (h : s'.Marked) (hs : s.Marked) (hsize : s.binders.size ≤ s'.binders.size) :
    Marked { s' with scope := s.scope } where
  scope i hi := Nat.lt_of_lt_of_le (hs.scope i hi) hsize
  grounded := h.grounded
  used := h.used

end Marked

/-- The warnings about those of the binders that are not used. -/
def warnings (s : CheckerState) (is : List Nat) : List TypeError :=
  is.filterMap fun i => s.binders[i]?.bind Binder.warning?

/-- The binders are those of the names. -/
def Holds (s : CheckerState) : List Nat → List Ident → Prop :=
  List.Forall₂ fun i n => ∃ b, s.binders[i]? = some b ∧ b.simpleName = n.text ∧ b.span = n.span

/-- From `s` to `s'` the names came into scope, went out of it again, and were warned about unless they
were used. A binder that is not in scope is not used any more. -/
structure Retires (ns : List Ident) (s s' : CheckerState) : Prop where
  options : s'.options = s.options
  scope : ∀ i ∈ s'.scope.binders, i ∈ s.scope.binders ∨ s.binders.size ≤ i
  keeps : ∀ (i : Nat) (b : Binder), s.binders[i]? = some b → ∃ b', s'.binders[i]? = some b' ∧
    b'.simpleName = b.simpleName ∧ b'.span = b.span ∧ (i ∉ s.scope.binders → b'.used = b.used)
  warns : s.options.unused = true → ∃ is, s'.Holds is ns ∧
    (∀ i ∈ is, s.binders.size ≤ i ∧ i ∉ s'.scope.binders) ∧
    (s'.records.errors.filter TypeError.isUnused).Perm
      (s'.warnings is ++ s.records.errors.filter TypeError.isUnused)

theorem Holds.lt_size (h : s.Holds is ns) : ∀ i ∈ is, i < s.binders.size := by
  induction h with
  | nil => exact nofun
  | cons hi _ ih =>
    obtain ⟨b, hb, -⟩ := hi
    exact List.forall_mem_cons.mpr ⟨(Array.getElem?_eq_some_iff.mp hb).1, ih⟩

namespace Retires

theorem of_same (hoptions : s'.options = s.options) (hscope : s'.scope.binders = s.scope.binders)
    (hbinders : s'.binders = s.binders)
    (herrors : s'.records.errors.filter TypeError.isUnused = s.records.errors.filter TypeError.isUnused) :
    Retires [] s s' where
  options := hoptions
  scope _ hi := .inl (hscope ▸ hi)
  keeps _ b hb := ⟨b, hbinders ▸ hb, rfl, rfl, fun _ => rfl⟩
  warns _ := ⟨[], .nil, nofun, herrors ▸ .refl _⟩

theorem size_le (h : Retires ns s s') : s.binders.size ≤ s'.binders.size := by
  by_contra hlt
  obtain ⟨b, hb, -⟩ := h.keeps s'.binders.size _ (Array.getElem?_eq_getElem (by omega))
  simp at hb

/-- Binders keep their names. -/
theorem holds (h : Retires ns s s') (hholds : s.Holds is ns') : s'.Holds is ns' := by
  refine List.Forall₂.imp ?_ hholds
  rintro i n ⟨b, hb, hname, hspan⟩
  obtain ⟨b', hb', hname', hspan', -⟩ := h.keeps i b hb
  exact ⟨b', hb', hname'.trans hname, hspan'.trans hspan⟩

/-- What is out of scope stays as it is. -/
theorem warnings_eq (h : Retires ns s s') (his : ∀ i ∈ is, i < s.binders.size ∧ i ∉ s.scope.binders) :
    s'.warnings is = s.warnings is := by
  refine List.filterMap_congr fun i hi => ?_
  obtain ⟨hsize, hscope⟩ := his i hi
  obtain ⟨b', hb', hname, hspan, hused⟩ := h.keeps i _ (Array.getElem?_eq_getElem hsize)
  rw [hb', Array.getElem?_eq_getElem hsize, Option.bind_some, Option.bind_some, Binder.warning?,
    Binder.warning?, hname, hspan, hused hscope]

theorem trans (h : Retires ns s s₁) (h' : Retires ns' s₁ s') : Retires (ns ++ ns') s s' where
  options := h'.options.trans h.options
  scope i hi := by
    have hsize := h.size_le
    rcases h'.scope i hi with hi | hi
    · exact h.scope i hi
    · exact .inr (hsize.trans hi)
  keeps i b hb := by
    obtain ⟨b₁, hb₁, hname₁, hspan₁, hused₁⟩ := h.keeps i b hb
    obtain ⟨b', hb', hname, hspan, hused⟩ := h'.keeps i b₁ hb₁
    have hsize := (Array.getElem?_eq_some_iff.mp hb).1
    refine ⟨b', hb', hname.trans hname₁, hspan.trans hspan₁, fun hi => ?_⟩
    refine (hused fun hi₁ => ?_).trans (hused₁ hi)
    rcases h.scope i hi₁ with hi₁ | hi₁
    · exact hi hi₁
    · omega
  warns hunused := by
    obtain ⟨is, hholds, hnew, hwarned⟩ := h.warns hunused
    obtain ⟨is', hholds', hnew', hwarned'⟩ := h'.warns (h.options ▸ hunused)
    have hsize := h.size_le
    have hold : ∀ i ∈ is, i < s₁.binders.size ∧ i ∉ s₁.scope.binders := fun i hi =>
      ⟨hholds.lt_size i hi, (hnew i hi).2⟩
    refine ⟨is ++ is', List.rel_append (h'.holds hholds) hholds', ?_, ?_⟩
    · refine List.forall_mem_append.mpr ⟨fun i hi => ⟨(hnew i hi).1, fun hi' => ?_⟩, fun i hi => ?_⟩
      · rcases h'.scope i hi' with hi' | hi'
        · exact (hold i hi).2 hi'
        · exact absurd (hold i hi).1 (by omega)
      · exact ⟨hsize.trans (hnew' i hi).1, (hnew' i hi).2⟩
    · rw [warnings, List.filterMap_append, ← warnings, ← warnings, h'.warnings_eq hold]
      refine hwarned'.trans ((hwarned.append_left _).trans ?_)
      rw [← List.append_assoc]
      exact List.perm_append_comm.append_right _

/-- Behind a construct what came into scope in it is out of scope. -/
theorem leave (h : Retires ns s s') (hs : s.Marked) : Retires ns s { s' with scope := s.scope } where
  options := h.options
  scope _ := .inl
  keeps := h.keeps
  warns hunused := by
    obtain ⟨is, hholds, hnew, hwarned⟩ := h.warns hunused
    refine ⟨is, hholds, fun i hi => ⟨(hnew i hi).1, fun hi' => ?_⟩, hwarned⟩
    exact absurd (hs.scope i hi') (by have := (hnew i hi).1; omega)

/-- Names that came into scope go out of it, and those that are not used are warned about. -/
theorem close (h : Retires ns s s₁) (hs : s.Marked) (hholds : s₁.Holds is ns')
    (hnew : ∀ i ∈ is, s.binders.size ≤ i) (hbinders : s'.binders = s₁.binders)
    (hoptions : s'.options = s₁.options)
    (hwarned : s₁.options.unused = true → (s'.records.errors.filter TypeError.isUnused).Perm
      (s₁.warnings is ++ s₁.records.errors.filter TypeError.isUnused)) :
    Retires (ns' ++ ns) s { s' with scope := s.scope } where
  options := hoptions.trans h.options
  scope _ := .inl
  keeps := by
    change ∀ (i : Nat) (b : Binder), s.binders[i]? = some b → ∃ b', s'.binders[i]? = some b' ∧ _
    rw [hbinders]
    exact h.keeps
  warns hunused := by
    obtain ⟨is', hholds', hnew', hwarned'⟩ := h.warns hunused
    have hout (i : Nat) (hi : s.binders.size ≤ i) : i ∉ s.scope.binders := fun hi' =>
      absurd (hs.scope i hi') (by omega)
    have hall : s₁.Holds (is ++ is') (ns' ++ ns) := List.rel_append hholds hholds'
    have hsame (is : List Nat) : warnings { s' with scope := s.scope } is = s₁.warnings is := by
      simp only [warnings, hbinders]
    refine ⟨is ++ is', ?_, fun i hi => ?_, ?_⟩
    · change s'.Holds _ _
      rw [Holds, hbinders]
      exact hall
    · have hi : s.binders.size ≤ i := (List.mem_append.mp hi).elim (hnew i) fun hi => (hnew' i hi).1
      exact ⟨hi, hout i hi⟩
    · rw [hsame, warnings, List.filterMap_append, List.append_assoc]
      exact (hwarned (h.options ▸ hunused)).trans (hwarned'.append_left _)

end Retires

/-- Around the names that come and go, nothing changes that names are looked up in. -/
structure Confines (ns : List Ident) (s s' : CheckerState) : Prop extends
    s.Retires ns s', s.Stays s' where
  abbreviations : s'.abbreviations = s.abbreviations

namespace Confines

theorem trans (h : Confines ns s s₁) (h' : Confines ns' s₁ s') : Confines (ns ++ ns') s s' :=
  ⟨h.toRetires.trans h'.toRetires, h.toStays.trans h'.toStays, h'.abbreviations.trans h.abbreviations⟩

theorem of_ledger (h : s'.ledger = s.ledger) : s.Confines [] s' := by
  have hscope : s'.scope = s.scope := show s'.ledger.scope = s.ledger.scope from h ▸ rfl
  have herrors : s'.ledger.records.errors.filter TypeError.isUnused =
      s.ledger.records.errors.filter TypeError.isUnused := by rw [h]
  have hunused (e : TypeError) : (e.isUnused && (e.isMiss || e.isUnused)) = e.isUnused := by
    cases e.isUnused <;> simp
  simp only [ledger, List.filter_filter, hunused] at herrors
  refine ⟨.of_same ?_ (congrArg _ hscope) ?_ herrors, .of_ledger h, ?_⟩
  · exact show s'.ledger.options = s.ledger.options from h ▸ rfl
  · exact show s'.ledger.binders = s.ledger.binders from h ▸ rfl
  · exact show s'.ledger.abbreviations = s.ledger.abbreviations from h ▸ rfl

/-- What is put on record about something else than names that are not used changes nothing here. -/
theorem record (s : CheckerState) (records : CheckerRecords)
    (h : records.errors.filter TypeError.isUnused = s.records.errors.filter TypeError.isUnused) :
    s.Confines [] { s with records } :=
  ⟨.of_same rfl rfl rfl h, ⟨rfl, rfl, rfl⟩, rfl⟩

end Confines
end CheckerState

namespace Checker

open CheckerState

variable {α β : Type} {p : Checker α} {f : α → Checker β} {ns ns' : List Ident} {s : CheckerState}

/-- The names that come into scope in this part of the checker go out of scope again, except for some new
binders. Nothing else changes that names are looked up in. -/
def Confines (p : Checker α) (ns : List Ident) : Prop :=
  ∀ s : CheckerState, s.Marked → p.Yields s fun _ s' => s'.Marked ∧ s.Confines ns s'

theorem Confines.bind (hp : p.Confines ns) (hf : ∀ a, (f a).Confines ns') :
    (p >>= f).Confines (ns ++ ns') := fun s hs =>
  (hp s hs).bind fun a s₁ h₁ => (hf a s₁ h₁.1).mono fun _ _ h₂ => ⟨h₂.1, h₁.2.trans h₂.2⟩

theorem Silent.confines (hp : Silent p) : p.Confines [] := fun s hs =>
  (hp s).mono fun _ _ h => ⟨hs.of_ledger h, .of_ledger h⟩

theorem Confines.andThen (hp : p.Confines ns) (hf : ∀ a, (f a).Confines []) : (p >>= f).Confines ns := by
  simpa using hp.bind hf

theorem Confines.getBind {f : CheckerState → Checker β} (hf : ∀ s, (f s).Confines ns) :
    (get >>= f).Confines ns :=
  fun s => hf s s

theorem Confines.withScope (hp : p.Confines ns) : (withScope p).Confines ns := by
  intro s hs
  simp only [Checker.withScope, yields_bind, yields_get, yields_modify, yields_pure]
  refine (hp s hs).mono fun _ s' h => ⟨h.1.leave hs h.2.size_le, ?_⟩
  exact ⟨h.2.toRetires.leave hs, ⟨h.2.entities, rfl, rfl⟩, h.2.abbreviations⟩

/-! Records -/

theorem report_confines {cause : TypeError.Cause} (span : Span) (h : (cause.code == "W1182") = false) :
    (report cause span).Confines [] := fun s hs =>
  ⟨hs.of_same rfl rfl rfl, .record s _ (List.filter_cons_of_neg (Bool.eq_false_iff.mp h))⟩

theorem mention_confines (span : Span) (symbol : Symbol) : (mention span (.fixed symbol)).Confines [] :=
  fun s hs => ⟨hs.mention rfl rfl rfl, .record s _ rfl⟩

theorem declare_confines (span : Span) (symbol : Symbol) : (declare span (.fixed symbol)).Confines [] :=
  fun s hs => ⟨hs.mention rfl rfl rfl, .record s _ rfl⟩

theorem recordMember_confines (site : MemberSite) : (recordMember site).Confines [] := fun s hs =>
  ⟨hs.of_same rfl rfl rfl, .record s _ rfl⟩

theorem recordCall_confines (site : CallSite) : (recordCall site).Confines [] := fun s hs =>
  ⟨hs.of_same rfl rfl rfl, .record s _ rfl⟩

/-! Names -/

/-- Only binders in scope are used. -/
theorem useBinder_confines {i : Nat} (hi : i ∈ s.scope.binders) (span : Span) :
    s.Confines [] (s.useBinder i span) := by
  refine ⟨⟨rfl, fun _ => .inl, fun j b hb => ?_, fun _ => ⟨[], .nil, nofun, .refl _⟩⟩, ⟨rfl, rfl, rfl⟩, rfl⟩
  simp only [useBinder, Array.getElem?_modify, hb]
  split
  case isTrue hij => exact ⟨_, rfl, rfl, rfl, fun hout => absurd (hij ▸ hi) hout⟩
  case isFalse => exact ⟨b, rfl, rfl, rfl, fun _ => rfl⟩

theorem binderCallee_confines {i : Nat} (hs : s.Marked) (hi : i ∈ s.scope.binders) (span : Span) :
    (binderCallee i span).Yields s fun _ s' => s'.Marked ∧ s.Confines [] s' := by
  refine Yields.bind (Q := fun _ s' => s' = { s with binders := _ }) rfl ?_
  rintro _ _ rfl
  refine Yields.bind (Q := fun _ s' => s' = s.useBinder i span) rfl ?_
  rintro _ _ rfl
  refine ((silent_binderUse i).confines _ (hs.useBinder (hs.scope i hi) span)).mono fun _ _ h => ⟨h.1, ?_⟩
  exact (useBinder_confines hi span).trans h.2

theorem entityCallee_confines (path : String) (name : Ident) : (entityCallee path name).Confines [] := by
  refine .getBind fun s => ?_
  split
  · exact (silent_pure _).confines
  · refine (mention_confines _ _).bind fun _ => ?_
    split
    · exact (report_confines _ rfl).andThen fun _ => (silent_pure _).confines
    · exact (silent_pure _).confines

theorem nameCallee_confines (name : Ident) : (nameCallee name).Confines [] := by
  refine silent_readScope.confines.bind fun _ s hs => ?_
  simp only [yields_bind, yields_get]
  cases hmeaning : s.meaning? name.text with
  | none => exact (report_confines name.span rfl).andThen (fun _ => (silent_pure _).confines) s hs
  | some meaning =>
    obtain ⟨i, rfl, hi⟩ | ⟨owner, m, rfl, -, -⟩ | ⟨path, rfl, -, -⟩ := meaning_cases hmeaning
    · exact binderCallee_confines hs (List.mem_of_find?_eq_some hi) _
    · exact (mention_confines _ _).andThen (fun _ => (silent_memberCallee owner m).confines) s hs
    · exact entityCallee_confines path name s hs

theorem mentionSegments_confines (before : String) (parts : List Ident) :
    (mentionSegments before parts).Confines [] := by
  induction parts generalizing before with
  | nil => exact (silent_pure _).confines
  | cons part parts ih =>
    refine .getBind fun s => ?_
    split
    · exact (mention_confines _ _).bind fun _ => ih _
    · exact ih _

theorem entityOf_confines (e : Expr) : (entityOf? e).Confines [] := by
  unfold entityOf?
  split
  · exact (silent_pure _).confines
  · refine silent_readScope.confines.bind fun _ => .getBind fun s => ?_
    split
    · exact (silent_pure _).confines
    · split
      · exact (silent_pure _).confines
      · exact (mentionSegments_confines _ _).andThen fun _ => (silent_pure _).confines

/-- Only a dotted name means an entity. -/
theorem entityOf_isSome (e : Expr) (s : CheckerState) :
    (entityOf? e).Yields s fun path? _ => path?.isSome = true → e.longName?.isSome = true := by
  unfold entityOf?
  split
  case h_1 => exact nofun
  case h_2 name hname => exact fun _ => hname ▸ rfl

/-! Members -/

theorem entityMember_confines (span dot : Span) (path : String) (name? : Option Ident) :
    (entityMember span dot path name?).Confines [] := by
  refine (recordMember_confines _).bind fun _ => ?_
  split
  · exact (silent_pure _).confines
  · refine .getBind fun s => ?_
    dsimp only
    split
    · exact entityCallee_confines _ _
    · split
      · exact (mention_confines _ _).andThen fun _ => (silent_memberCallee _ _).confines
      · exact (report_confines _ rfl).andThen fun _ => (silent_pure _).confines

theorem valueMember_confines (span dot : Span) (receiver : Ty) (name? : Option Ident) :
    (valueMember span dot receiver name?).Confines [] := by
  refine (silent_shallow receiver).confines.bind fun t => (recordMember_confines _).bind fun _ => ?_
  split
  · exact (silent_pure _).confines
  · exact (silent_pure _).confines
  · exact (report_confines span rfl).andThen fun _ => (silent_pure _).confines
  · refine .getBind fun s => ?_
    split
    · exact (mention_confines _ _).andThen fun _ => (silent_memberCallee _ _).confines
    · refine (silent_zonk _).confines.bind fun _ => ?_
      exact (report_confines _ rfl).andThen fun _ => (silent_pure _).confines

/-! Annotations -/

theorem entityType_confines (name : LongIdent) : (entityType name).Confines [] := by
  refine .getBind fun s => ?_
  dsimp only
  split
  · exact (mentionSegments_confines _ _).andThen fun _ => (silent_pure _).confines
  · exact (report_confines _ rfl).andThen fun _ => (silent_pure _).confines

theorem namedType_confines (name : LongIdent) : (namedType name).Confines [] := by
  unfold namedType
  dsimp only
  split
  · exact (silent_pure _).confines
  · split
    · exact (silent_fresh.bind fun _ => silent_pure _).confines
    · have hlookup : Silent (abbreviation? name.render) := Silent.getBind fun _ => silent_pure _
      refine hlookup.confines.bind fun found => ?_
      split
      · exact (silent_pure _).confines
      · exact entityType_confines name

theorem constructedType_confines (argument : Ty) (ctor : LongIdent) :
    (constructedType argument ctor).Confines [] := by
  unfold constructedType
  split
  · exact (silent_pure _).confines
  · exact (silent_pure _).confines
  · exact (report_confines _ rfl).andThen fun _ => (silent_pure _).confines

mutual

theorem annotation_confines (t : TypeExpr) : Confines ( annotation t) [] := by
  match t with
  | .named _ name => exact namedType_confines name
  | .var _ name => exact (silent_typeVariable _).confines
  | .app _ argument ctor => exact (annotation_confines argument).bind fun _ => constructedType_confines _ ctor
  | .array _ element => exact (annotation_confines element).andThen fun _ => (silent_pure _).confines
  | .function _ domain codomain =>
    refine (annotation_confines domain).bind fun _ => ?_
    exact (annotation_confines codomain).andThen fun _ => (silent_pure _).confines
  | .tuple _ items => exact (annotations_confine items).andThen fun _ => (silent_pure _).confines
  | .error _ => exact (silent_pure _).confines

theorem annotations_confine (ts : List TypeExpr) : (annotations ts).Confines [] := by
  match ts with
  | [] => exact (silent_pure _).confines
  | t :: ts =>
    refine (annotation_confines t).bind fun _ => ?_
    exact (annotations_confine ts).andThen fun _ => (silent_pure _).confines

end

/-! Patterns -/

/-- The checker returns new binders of the names `names`, which stay in scope. -/
def Brings (p : Checker (List Nat)) (names ns : List Ident) : Prop :=
  ∀ s : CheckerState, s.Marked → p.Yields s fun is s' => s'.Marked ∧ s.Confines ns s' ∧
    s'.Holds is names ∧ ∀ i ∈ is, s.binders.size ≤ i

variable {names names' : List Ident} {visible : Span} {ofModule : Bool}

theorem brings_nil : Brings (pure []) [] [] := fun _ hs =>
  ⟨hs, .of_ledger rfl, .nil, nofun⟩

theorem Confines.brings {f : α → Checker (List Nat)} (hp : p.Confines ns)
    (hf : ∀ a, (f a).Brings names ns') : (p >>= f).Brings names (ns ++ ns') := by
  intro s hs
  refine (hp s hs).bind fun a s₁ h₁ => (hf a s₁ h₁.1).mono fun is s' h' => ?_
  obtain ⟨hs', hconfines, hholds, hnew⟩ := h'
  exact ⟨hs', h₁.2.trans hconfines, hholds, fun i hi => h₁.2.size_le.trans (hnew i hi)⟩

theorem Brings.append {p q : Checker (List Nat)} (hp : p.Brings names []) (hq : q.Brings names' []) :
    Brings (do
      let first ← p
      let rest ← q
      return first ++ rest) (names ++ names') [] := by
  intro s hs
  refine (hp s hs).bind fun is s₁ h₁ => ?_
  obtain ⟨hs₁, hconfines, hholds, hnew⟩ := h₁
  refine (hq s₁ hs₁).bind fun is' s' h' => ?_
  obtain ⟨hs', hconfines', hholds', hnew'⟩ := h'
  refine ⟨hs', hconfines.trans hconfines', List.rel_append (hconfines'.holds hholds) hholds', ?_⟩
  exact List.forall_mem_append.mpr ⟨hnew, fun i hi => hconfines.size_le.trans (hnew' i hi)⟩

theorem enter_confines (s : CheckerState) (b : Binder) (visible : Span) :
    s.Confines [] (s.enter b visible) := by
  refine ⟨⟨rfl, fun i hi => ?_, fun i b' hb' => ?_, fun _ => ⟨[], .nil, nofun, .refl _⟩⟩, ⟨rfl, rfl, rfl⟩, rfl⟩
  · rcases List.mem_cons.mp hi with rfl | hi
    · exact .inr (Nat.le_refl _)
    · exact .inl hi
  · have hne : i ≠ s.binders.size := Nat.ne_of_lt (Array.getElem?_eq_some_iff.mp hb').1
    refine ⟨b', ?_, rfl, rfl, fun _ => rfl⟩
    rw [enter, Array.getElem?_push, if_neg hne]
    exact hb'

theorem bind_brings (name : Ident) (scheme : Scheme) (params : List String) :
    Brings (do return [← bind name scheme params visible ofModule]) [name] [] := by
  intro s hs
  let b : Binder :=
    { name := if ofModule then s.qualified name.text else name.text
      simpleName := name.text, scheme, params, span := name.span }
  have hb : (s.enter b visible).binders[s.binders.size]? = some b := Array.getElem?_push_size
  exact ⟨hs.enter (b := b) rfl visible, enter_confines s b visible, .cons ⟨b, hb, rfl, rfl⟩ .nil,
    List.forall_mem_singleton.mpr (Nat.le_refl _)⟩

mutual

theorem bindPattern_brings (p : Pattern) (t : Ty) :
    (bindPattern visible ofModule p t).Brings p.boundNames [] := by
  match p with
  | .named _ name => exact bind_brings name (.mono t) []
  | .wildcard _ | .error _ => exact brings_nil
  | .unit span => exact (silent_expect _ _ _).confines.brings fun _ => brings_nil
  | .tuple span items =>
    intro s hs
    refine ((silent_freshAll items).confines s hs |>.and (freshAll_length items s)).bind fun parts s₁ h₁ => ?_
    obtain ⟨⟨hs₁, hconfines⟩, hlength⟩ := h₁
    have hitems : Brings (do
        expect (.tuple parts) t span
        bindPatterns visible ofModule items parts) (Pattern.boundNamesOfAll items) [] :=
      (silent_expect _ _ _).confines.brings fun _ => bindPatterns_bring items parts hlength
    refine (hitems s₁ hs₁).mono fun is s' h' => ?_
    obtain ⟨hs', hconfines', hholds, hnew⟩ := h'
    exact ⟨hs', hconfines.trans hconfines', hholds, fun i hi => hconfines.size_le.trans (hnew i hi)⟩
  | .typed span inner written =>
    refine (annotation_confines written).brings fun annotated => ?_
    exact (silent_expect _ _ _).confines.brings fun _ => bindPattern_brings inner annotated

theorem bindPatterns_bring (ps : List Pattern) (ts : List Ty) (hlength : ts.length = ps.length) :
    (bindPatterns visible ofModule ps ts).Brings (Pattern.boundNamesOfAll ps) [] := by
  match ps, ts with
  | [], _ => exact brings_nil
  | p :: ps, [] => cases hlength
  | p :: ps, t :: ts =>
    exact (bindPattern_brings p t).append (bindPatterns_bring ps ts (Nat.succ.inj hlength))

end

theorem Brings.confines {p : Checker (List Nat)} (hp : p.Brings names ns) : p.Confines ns := fun s hs =>
  (hp s hs).mono fun _ _ h => ⟨h.1, h.2.1⟩

/-- The binders of parameters need not be known, as nobody warns about them. -/
theorem bindParams_confines (ps : List Pattern) (expected : Option Ty) :
    (bindParams visible ps expected).Confines [] := by
  induction ps generalizing expected with
  | nil => exact (silent_pure _).confines
  | cons p ps ih =>
    have hrest (t : Ty) (result? : Option Ty) : Confines (bindParamsFrom visible p ps t result?) [] :=
      (bindPattern_brings p t).confines.bind fun _ => (ih result?).andThen fun _ => (silent_pure _).confines
    unfold bindParams
    split
    · exact (silent_shallow _).confines.bind fun ret => hrest _ _
    · exact silent_fresh.confines.bind fun t => hrest t none

end Checker
end ScriptAnalyzer

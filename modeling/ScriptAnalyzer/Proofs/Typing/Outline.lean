import ScriptAnalyzer.Typing.Expr
import ScriptAnalyzer.Proofs.Typing.Steps

/-!
What checking does to the scope, the entities and the records of names. Inference and the reporting of
errors leave all of that as it is.
-/

namespace ScriptAnalyzer

/-- The symbols of the entities and of their members. -/
inductive Entities.Knows (es : Entities) : Symbol → Prop
  | entity {e : Entity} : e ∈ es.all → Knows es e.symbol
  | member {e : Entity} {m : Member} : e ∈ es.all → m ∈ e.members → Knows es (m.symbol e.path)
  | common {m : Member} : m ∈ Catalog.object.members → Knows es (m.symbol Catalog.object.path)

theorem Entity.mem_of_staticMember? {e : Entity} {name : String} {m : Member}
    (h : e.staticMember? name = some m) : m ∈ e.members ∧ m.name = name ∧ m.isStatic = true := by
  obtain ⟨hmember, hstatic⟩ := Option.filter_eq_some_iff.mp h
  exact ⟨List.mem_of_find?_eq_some hmember, by simpa using List.find?_some hmember, hstatic⟩

namespace TypeError

/-- Whether the error is about a name that means nothing at its place. -/
def isMiss (e : TypeError) : Bool := e.cause.code == "E0039"

/-- Whether the error is a warning about a name that is not used. -/
def isUnused (e : TypeError) : Bool := e.cause.code == "W1182"

end TypeError

namespace CheckerState

/-- The scope, the entities, the binders and the records of names. -/
def outline (s : CheckerState) : CheckerState :=
  { entities := s.entities, binders := s.binders, scope := s.scope
    records := { s.records with errors := [], calls := [] } }

/-- The outline, the abbreviations, the options, the calls, and the errors about names that mean nothing or
are not used. -/
def ledger (s : CheckerState) : CheckerState :=
  { s.outline with
    abbreviations := s.abbreviations
    options := s.options
    records := { s.records with errors := s.records.errors.filter fun e => e.isMiss || e.isUnused } }

def note (s : CheckerState) (span : Span) (symbol : Symbol) : CheckerState :=
  { s with records.mentions := ⟨span, .fixed symbol, false⟩ :: s.records.mentions }

def access (s : CheckerState) (site : MemberSite) : CheckerState :=
  { s with records.members := site :: s.records.members }

def declareAt (s : CheckerState) (span : Span) (target : Target) : CheckerState :=
  { s with
    records.declarations := (span, target) :: s.records.declarations
    records.mentions := ⟨span, target, true⟩ :: s.records.mentions }

def useBinder (s : CheckerState) (index : Nat) (span : Span) : CheckerState :=
  { s with
    binders := s.binders.modify index fun b => { b with used := true }
    records.mentions := ⟨span, .binder index, false⟩ :: s.records.mentions }

def enter (s : CheckerState) (b : Binder) (visible : Span) : CheckerState :=
  { s with
    binders := s.binders.push b
    scope.binders := s.binders.size :: s.scope.binders
    records.visible := (visible, s.binders.size) :: s.records.visible
    records.declarations := (b.span, .binder s.binders.size) :: s.records.declarations
    records.mentions := ⟨b.span, .binder s.binders.size, true⟩ :: s.records.mentions }

/-- Gives the binders their final scheme. -/
def settle (s : CheckerState) (indices : List Nat) (scheme : Scheme) : CheckerState :=
  indices.foldl (fun s i => { s with binders := s.binders.modify i fun b => { b with scheme } }) s

theorem settle_scope (s : CheckerState) (indices : List Nat) (scheme : Scheme) :
    (s.settle indices scheme).scope = s.scope := by
  unfold settle
  induction indices generalizing s with
  | nil => rfl
  | cons i is ih => exact ih _

theorem settle_records (s : CheckerState) (indices : List Nat) (scheme : Scheme) :
    (s.settle indices scheme).records = s.records := by
  unfold settle
  induction indices generalizing s with
  | nil => rfl
  | cons i is ih => exact ih _

end CheckerState

namespace Checker

variable {α β : Type}

/-- A part of the checker that only infers types and reports errors. -/
def Quiet (p : Checker α) : Prop := ∀ s, p.Yields s fun _ s' => s'.outline = s.outline

theorem Quiet.bind {p : Checker α} {f : α → Checker β} (hp : Quiet p) (hf : ∀ a, Quiet (f a)) :
    Quiet (p >>= f) :=
  fun s => (hp s).bind fun a s₁ h₁ => (hf a s₁).mono fun _ _ h₂ => h₂.trans h₁

theorem quiet_pure (a : α) : Quiet (pure a) := fun _ => rfl

theorem Quiet.getBind {f : CheckerState → Checker β} (hf : ∀ s, Quiet (f s)) : Quiet (get >>= f) :=
  fun s => hf s s

/-- Behind a quiet part the rest is done in a state of the same outline. -/
theorem Quiet.first {p : Checker α} {f : α → Checker β} {s : CheckerState}
    {Q : β → CheckerState → Prop} (hp : Quiet p)
    (hf : ∀ a s', s'.outline = s.outline → (f a).Yields s' Q) : (p >>= f).Yields s Q :=
  (hp s).bind hf

theorem Quiet.keeps {p : Checker α} {s : CheckerState} {R : CheckerState → Prop} (hp : Quiet p)
    (h : R s.outline) : p.Yields s fun _ s' => R s'.outline :=
  (hp s).mono fun _ _ h' => h'.symm ▸ h

/-- A part of the checker that finds no name missing or unused, either. -/
def Silent (p : Checker α) : Prop := ∀ s, p.Yields s fun _ s' => s'.ledger = s.ledger

theorem Silent.quiet {p : Checker α} (h : Silent p) : Quiet p := fun s =>
  (h s).mono fun _ _ => congrArg CheckerState.outline

theorem Silent.bind {p : Checker α} {f : α → Checker β} (hp : Silent p) (hf : ∀ a, Silent (f a)) :
    Silent (p >>= f) :=
  fun s => (hp s).bind fun a s₁ h₁ => (hf a s₁).mono fun _ _ h₂ => h₂.trans h₁

theorem silent_pure (a : α) : Silent (pure a) := fun _ => rfl

theorem Silent.getBind {f : CheckerState → Checker β} (hf : ∀ s, Silent (f s)) : Silent (get >>= f) :=
  fun s => hf s s

theorem yields_mention (span : Span) (symbol : Symbol) (s : CheckerState)
    (Q : Unit → CheckerState → Prop) :
    Yields (mention span (.fixed symbol)) s Q ↔ Q () (s.note span symbol) :=
  Iff.rfl

theorem yields_recordMember (site : MemberSite) (s : CheckerState) (Q : Unit → CheckerState → Prop) :
    Yields (recordMember site) s Q ↔ Q () (s.access site) :=
  Iff.rfl

/-! Inference -/

theorem silent_fresh : Silent fresh := fun _ => rfl

theorem silent_shallow (t : Ty) : Silent (shallow t) := fun _ => rfl

theorem silent_zonk (t : Ty) : Silent (zonk t) := fun _ => rfl

theorem silent_instantiate (scheme : Scheme) : Silent (instantiate scheme) := fun _ => rfl

theorem silent_unify (a b : Ty) : Silent (unify a b) := fun _ => rfl

theorem silent_unifies (a b : Ty) : Silent (unifies a b) := fun _ => rfl

theorem silent_binderAt (index : Nat) : Silent (binderAt? index) := fun _ => rfl

theorem silent_readScope : Silent readScope := fun _ => rfl

theorem silent_report {cause : TypeError.Cause} (span : Span)
    (h : (cause.code == "E0039" || cause.code == "W1182") = false) : Silent (report cause span) := by
  intro s
  have herrors : (⟨cause, span⟩ :: s.records.errors : List TypeError).filter (fun e => e.isMiss || e.isUnused) =
      s.records.errors.filter fun e => e.isMiss || e.isUnused :=
    List.filter_cons_of_neg (Bool.eq_false_iff.mp h)
  exact congrArg (fun errors => { s.ledger with records := { s.records with errors } }) herrors

theorem silent_expect (expected found : Ty) (span : Span) : Silent (expect expected found span) := by
  refine (silent_unify expected found).bind fun ok => ?_
  split
  · exact silent_pure _
  · exact (silent_zonk _).bind fun _ => (silent_zonk _).bind fun _ => silent_report _ rfl

theorem silent_calleeType (span : Span) (c : Callee) : Silent (calleeType span c) := by
  unfold calleeType
  split
  · exact silent_pure _
  · exact silent_pure _
  · exact (silent_report _ rfl).bind fun _ => silent_pure _

theorem silent_callMethod (name : String) (overloads : List Overload) (args : List Ty) (span : Span) :
    Silent (callMethod name overloads args span) := by
  intro s
  simp only [callMethod, yields_bind, yields_modify, yields_get]
  split <;> exact rfl

theorem silent_notAFunction (span : Span) : Silent (notAFunction span) :=
  (silent_report _ rfl).bind fun _ => silent_pure _

theorem silent_applyType (function arg : Ty) (functionSpan argSpan : Span) :
    Silent (applyType function arg functionSpan argSpan) := by
  refine (silent_shallow _).bind fun head => ?_
  split
  · exact (silent_expect _ _ _).bind fun _ => silent_pure _
  · exact silent_pure _
  · exact silent_fresh.bind fun _ => (silent_expect _ _ _).bind fun _ => silent_pure _
  · exact silent_notAFunction _

theorem silent_arithmetic (op : BinaryOp) (t : Ty) (span : Span) : Silent (arithmetic op t span) := by
  refine (silent_shallow _).bind fun head => ?_
  split
  · exact (silent_unify _ _).bind fun _ => silent_pure _
  · exact silent_pure _
  · split
    · exact silent_pure _
    · exact (silent_zonk _).bind fun _ => (silent_report _ rfl).bind fun _ => silent_pure _

theorem silent_warnIgnored (t : Ty) (span : Span) : Silent (warnIgnored t span) := by
  refine (silent_shallow _).bind fun head => ?_
  split
  · exact (silent_unify _ _).bind fun _ => silent_pure _
  · exact silent_pure _
  · split
    · exact silent_pure _
    · exact (silent_zonk _).bind fun _ => silent_report _ rfl

theorem silent_freshAll (ps : List Pattern) : Silent (freshAll ps) := by
  induction ps with
  | nil => exact silent_pure _
  | cons p ps ih => exact silent_fresh.bind fun _ => ih.bind fun _ => silent_pure _

theorem silent_typeVariable (name : String) : Silent (typeVariable name) := by
  intro s
  simp only [typeVariable, yields_bind, yields_get]
  split <;> exact rfl

theorem silent_formatType (function : String) (placeholders : List Format.Conversion) :
    Silent (formatType function placeholders) := by
  refine Silent.bind ?_ fun args => ?_
  · induction placeholders with
    | nil => exact silent_pure _
    | cons c cs ih =>
      rw [List.mapM_cons]
      refine Silent.bind ?_ fun t => ih.bind fun ts => silent_pure _
      split
      · exact silent_pure _
      · exact silent_fresh
  · split
    · exact silent_pure _
    · exact silent_fresh.bind fun _ => silent_pure _
    · exact silent_pure _

theorem silent_memberCallee (owner : String) (m : Member) : Silent (memberCallee owner m) := by
  unfold memberCallee
  split
  · exact (silent_instantiate _).bind fun _ => silent_pure _
  all_goals exact silent_pure _

/-! The same, and what looks names up -/

theorem quiet_fresh : Quiet fresh := silent_fresh.quiet

theorem quiet_shallow (t : Ty) : Quiet (shallow t) := (silent_shallow t).quiet

theorem quiet_zonk (t : Ty) : Quiet (zonk t) := (silent_zonk t).quiet

theorem quiet_instantiate (scheme : Scheme) : Quiet (instantiate scheme) :=
  (silent_instantiate scheme).quiet

theorem quiet_unify (a b : Ty) : Quiet (unify a b) := (silent_unify a b).quiet

theorem quiet_unifies (a b : Ty) : Quiet (unifies a b) := (silent_unifies a b).quiet

theorem quiet_binderAt (index : Nat) : Quiet (binderAt? index) := (silent_binderAt index).quiet

theorem quiet_report (cause : TypeError.Cause) (span : Span) : Quiet (report cause span) :=
  fun _ => rfl

theorem quiet_recordCall (site : CallSite) : Quiet (recordCall site) := fun _ => rfl

theorem quiet_expect (expected found : Ty) (span : Span) : Quiet (expect expected found span) :=
  (silent_expect expected found span).quiet

theorem quiet_calleeType (span : Span) (c : Callee) : Quiet (calleeType span c) :=
  (silent_calleeType span c).quiet

theorem quiet_callMethod (name : String) (overloads : List Overload) (args : List Ty) (span : Span) :
    Quiet (callMethod name overloads args span) :=
  (silent_callMethod name overloads args span).quiet

theorem quiet_notAFunction (span : Span) : Quiet (notAFunction span) :=
  (silent_notAFunction span).quiet

theorem quiet_applyType (function arg : Ty) (functionSpan argSpan : Span) :
    Quiet (applyType function arg functionSpan argSpan) :=
  (silent_applyType function arg functionSpan argSpan).quiet

theorem quiet_arithmetic (op : BinaryOp) (t : Ty) (span : Span) : Quiet (arithmetic op t span) :=
  (silent_arithmetic op t span).quiet

theorem quiet_warnIgnored (t : Ty) (span : Span) : Quiet (warnIgnored t span) :=
  (silent_warnIgnored t span).quiet

theorem quiet_warnIfUnused (index : Nat) : Quiet (warnIfUnused index) := by
  refine (quiet_binderAt index).bind fun _ => ?_
  split
  · exact quiet_pure _
  · split
    · exact quiet_pure _
    · exact quiet_report _ _

theorem quiet_warnUnused (bound : List Nat) : Quiet (warnUnused bound) := by
  have hall : Quiet (bound.forM warnIfUnused) := by
    induction bound with
    | nil => exact quiet_pure _
    | cons i is ih =>
      rw [List.forM_eq_forM, List.forM_cons]
      exact (quiet_warnIfUnused i).bind fun _ => ih
  refine .getBind fun s => ?_
  split
  · exact hall
  · exact quiet_pure _

theorem quiet_freshAll (ps : List Pattern) : Quiet (freshAll ps) := (silent_freshAll ps).quiet

theorem quiet_typeVariable (name : String) : Quiet (typeVariable name) :=
  (silent_typeVariable name).quiet

theorem quiet_formatType (function : String) (placeholders : List Format.Conversion) :
    Quiet (formatType function placeholders) :=
  (silent_formatType function placeholders).quiet

theorem quiet_memberCallee (owner : String) (m : Member) : Quiet (memberCallee owner m) :=
  (silent_memberCallee owner m).quiet

theorem quiet_constructedType (argument : Ty) (ctor : LongIdent) :
    Quiet (constructedType argument ctor) := by
  unfold constructedType
  split
  · exact quiet_pure _
  · exact quiet_pure _
  · exact (quiet_report _ _).bind fun _ => quiet_pure _

theorem quiet_recordOf (span : Span) (fields : List (Ident × Expr)) : Quiet (recordOf? span fields) := by
  unfold recordOf?
  split
  · exact (quiet_report _ _).bind fun _ => quiet_pure _
  · refine Quiet.getBind fun s => ?_
    split
    · exact quiet_pure _
    · exact (quiet_report _ _).bind fun _ => quiet_pure _

end Checker
end ScriptAnalyzer

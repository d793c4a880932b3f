import ScriptAnalyzer.Proofs.Typing.Bindings
import ScriptAnalyzer.Typing.Check

/-!
Warnings that are not looked for are not found, and nothing else changes: a run that heeds options about
warnings does step by step what the run does that looks for all of them, and records what that run
records, less the warnings that the options leave out.
-/

namespace ScriptAnalyzer

/-- Whether warnings like this are looked for. -/
def WarningOptions.seeks (o : WarningOptions) : TypeError.Cause → Bool
  | .unused _ => o.unused
  | .shadowed _ => o.shadowing
  | _ => true

namespace CheckerState

/-- Where a run that heeds the options is when the run that looks for everything is in this state. -/
def heeding (o : WarningOptions) (faults : List Fault) (s : CheckerState) : CheckerState :=
  { s with options := o, records.errors := s.records.errors.filter fun e => o.seeks e.cause, faults }

/-- The second state is one of the run that heeds the options, where the run that looks for everything is
in the first one. A run that looks for less asks for fewer binders, so their faults may differ. -/
def InStep (o : WarningOptions) (s t : CheckerState) : Prop :=
  s.options = {} ∧ ∃ faults, t = s.heeding o faults

/-- A warning that is not looked for leaves no trace in the run that heeds the options. -/
theorem InStep.report {o : WarningOptions} {s t : CheckerState} (cause : TypeError.Cause) (h : s.InStep o t)
    (hseeks : o.seeks cause = false) (span : Span) :
    InStep o { s with records.errors := ⟨cause, span⟩ :: s.records.errors } t := by
  obtain ⟨hs, faults, rfl⟩ := h
  have herrors : (⟨cause, span⟩ :: s.records.errors : List TypeError).filter (fun e => o.seeks e.cause) =
      s.records.errors.filter fun e => o.seeks e.cause :=
    List.filter_cons_of_neg (by simp [hseeks])
  exact ⟨hs, faults, by simp only [heeding, herrors]⟩

end CheckerState

namespace Checker

variable {α β : Type} {o : WarningOptions}

/-- A part of the checker that finds the same in both runs, and leaves their states in step. -/
def Heeds (o : WarningOptions) (p : Checker α) : Prop := ∀ s t : CheckerState, s.InStep o t →
  (p.run t).1 = (p.run s).1 ∧ (p.run s).2.InStep o (p.run t).2

namespace Heeds

variable {p : Checker α} {f : α → Checker β}

theorem pure (a : α) : Heeds o (Pure.pure a) := fun _ _ h => ⟨rfl, h⟩

theorem bind (hp : Heeds o p) (hf : ∀ a, Heeds o (f a)) : Heeds o (p >>= f) := by
  intro s t h
  obtain ⟨ha, hstep⟩ := hp s t h
  change ((f (p.run t).1).run (p.run t).2).1 = _ ∧ CheckerState.InStep o _ ((f (p.run t).1).run (p.run t).2).2
  rw [ha]
  exact hf _ _ _ hstep

theorem next (hp : Heeds o p) {q : Checker β} (hq : Heeds o q) : Heeds o (p >>= fun _ => q) :=
  hp.bind fun _ => hq

theorem map (hp : Heeds o p) (g : α → β) : Heeds o (g <$> p) := hp.bind fun a => pure (g a)

/-- What is read of the state is the same in both runs. -/
theorem getBind {f : CheckerState → Checker α} (hsame : ∀ s faults, f (s.heeding o faults) = f s)
    (hf : ∀ s, Heeds o (f s)) : Heeds o (get >>= f) := by
  rintro s _ ⟨hs, faults, rfl⟩
  change ((f (s.heeding o faults)).run (s.heeding o faults)).1 = ((f s).run s).1 ∧
    ((f s).run s).2.InStep o ((f (s.heeding o faults)).run (s.heeding o faults)).2
  rw [hsame]
  exact hf s s _ ⟨hs, faults, rfl⟩

theorem modify {g : CheckerState → CheckerState} (hoptions : ∀ s, (g s).options = s.options)
    (hg : ∀ s faults, ∃ faults', g (s.heeding o faults) = (g s).heeding o faults') :
    Heeds o (modify g) := by
  rintro s _ ⟨hs, faults, rfl⟩
  exact ⟨rfl, (hoptions s).trans hs, hg s faults⟩

theorem withScope (hp : Heeds o p) : Heeds o (withScope p) := by
  rintro s _ ⟨hs, faults, rfl⟩
  obtain ⟨ha, hs', faults', heq⟩ := hp s _ ⟨hs, faults, rfl⟩
  exact ⟨ha, hs', faults', congrArg (fun t => { t with scope := s.scope }) heq⟩

theorem forM {f : β → Checker Unit} {as : List β} (h : ∀ a, Heeds o (f a)) : Heeds o (as.forM f) := by
  simp only [List.forM_eq_forM]
  induction as with
  | nil => exact pure ()
  | cons a as ih =>
    rw [List.forM_cons]
    exact (h a).next ih

end Heeds

/-! Types -/

theorem fresh_heeds : Heeds o fresh := fun _ _ ⟨hs, _, ht⟩ => ht ▸ ⟨rfl, hs, _, rfl⟩

theorem shallow_heeds (t : Ty) : Heeds o (shallow t) := fun _ _ ⟨hs, _, ht⟩ => ht ▸ ⟨rfl, hs, _, rfl⟩

theorem zonk_heeds (t : Ty) : Heeds o (zonk t) := fun _ _ ⟨hs, _, ht⟩ => ht ▸ ⟨rfl, hs, _, rfl⟩

theorem instantiate_heeds (scheme : Scheme) : Heeds o (instantiate scheme) := fun _ _ ⟨hs, _, ht⟩ => ht ▸ ⟨rfl, hs, _, rfl⟩

theorem unify_heeds (a b : Ty) : Heeds o (unify a b) := fun _ _ ⟨hs, _, ht⟩ => ht ▸ ⟨rfl, hs, _, rfl⟩

theorem unifies_heeds (a b : Ty) : Heeds o (unifies a b) := fun _ _ ⟨hs, _, ht⟩ => ht ▸ ⟨rfl, hs, _, rfl⟩

/-! Records -/

theorem binderAt_heeds (index : Nat) : Heeds o (binderAt? index) := fun _ _ ⟨hs, _, ht⟩ => ht ▸ ⟨rfl, hs, _, rfl⟩

theorem readScope_heeds : Heeds o readScope := .modify (fun _ => rfl) fun _ _ => ⟨_, rfl⟩

theorem report_heeds {cause : TypeError.Cause} (span : Span) (h : o.seeks cause = true) :
    Heeds o (report cause span) :=
  .modify (fun _ => rfl) fun s faults => ⟨faults, by
    have herrors : (⟨cause, span⟩ :: s.records.errors : List TypeError).filter (fun e => o.seeks e.cause) =
        ⟨cause, span⟩ :: s.records.errors.filter fun e => o.seeks e.cause :=
      List.filter_cons_of_pos h
    simp only [CheckerState.heeding, herrors]⟩

theorem mention_heeds (span : Span) (target : Target) : Heeds o (mention span target) :=
  .modify (fun _ => rfl) fun _ _ => ⟨_, rfl⟩

theorem declare_heeds (span : Span) (target : Target) : Heeds o (declare span target) :=
  .modify (fun _ => rfl) fun _ _ => ⟨_, rfl⟩

theorem recordMember_heeds (site : MemberSite) : Heeds o (recordMember site) :=
  .modify (fun _ => rfl) fun _ _ => ⟨_, rfl⟩

theorem recordCall_heeds (site : CallSite) : Heeds o (recordCall site) :=
  .modify (fun _ => rfl) fun _ _ => ⟨_, rfl⟩

theorem recordRegion_heeds (span : Span) (path : String) : Heeds o (recordRegion span path) :=
  .modify (fun _ => rfl) fun _ _ => ⟨_, rfl⟩

theorem expect_heeds (expected found : Ty) (span : Span) : Heeds o (expect expected found span) := by
  refine (unify_heeds expected found).bind fun ok => ?_
  split
  · exact .pure _
  · exact (zonk_heeds _).bind fun _ => (zonk_heeds _).bind fun _ => report_heeds _ rfl

/-! Names -/

theorem mentionSegments_heeds (before : String) (parts : List Ident) :
    Heeds o (mentionSegments before parts) := by
  induction parts generalizing before with
  | nil => exact .pure _
  | cons part parts ih =>
    refine .getBind (fun _ _ => rfl) fun s => ?_
    split
    · exact (mention_heeds _ _).next (ih _)
    · exact ih _

theorem mentionEntity_heeds (name : LongIdent) (path : String) : Heeds o (mentionEntity name path) :=
  mentionSegments_heeds _ _

theorem entityOf_heeds (e : Expr) : Heeds o (entityOf? e) := by
  unfold entityOf?
  split
  · exact .pure _
  · refine readScope_heeds.next (.getBind (fun _ _ => rfl) fun s => ?_)
    split
    · exact .pure _
    · split
      · exact .pure _
      · exact (mentionEntity_heeds _ _).next (.pure _)

/-! Annotations -/

theorem typeVariable_heeds (name : String) : Heeds o (typeVariable name) := by
  refine .getBind (fun _ _ => rfl) fun s => ?_
  split
  · exact .pure _
  · refine fresh_heeds.bind fun t => .next ?_ (.pure _)
    exact .modify (fun _ => rfl) fun _ _ => ⟨_, rfl⟩

theorem abbreviation_heeds (name : String) : Heeds o (abbreviation? name) :=
  .getBind (fun _ _ => rfl) fun _ => .pure _

theorem entityType_heeds (name : LongIdent) : Heeds o (entityType name) := by
  refine .getBind (fun _ _ => rfl) fun s => ?_
  dsimp only
  split
  · exact (mentionEntity_heeds _ _).next (.pure _)
  · exact (report_heeds _ rfl).next (.pure _)

theorem namedType_heeds (name : LongIdent) : Heeds o (namedType name) := by
  simp only [namedType]
  split
  · exact .pure _
  · split
    · exact fresh_heeds.bind fun _ => .pure _
    · refine (abbreviation_heeds _).bind fun t? => ?_
      split
      · exact .pure _
      · exact entityType_heeds name

theorem constructedType_heeds (argument : Ty) (ctor : LongIdent) : Heeds o (constructedType argument ctor) := by
  unfold constructedType
  split
  · exact .pure _
  · exact .pure _
  · exact (report_heeds _ rfl).next (.pure _)

mutual

theorem annotation_heeds : ∀ t : TypeExpr, Heeds o ( annotation t)
  | .named _ name => namedType_heeds name
  | .var _ name => typeVariable_heeds name.text
  | .app _ argument ctor => (annotation_heeds argument).bind fun t => constructedType_heeds t ctor
  | .array _ element => (annotation_heeds element).bind fun _ => .pure _
  | .function _ domain codomain =>
    (annotation_heeds domain).bind fun _ => (annotation_heeds codomain).bind fun _ => .pure _
  | .tuple _ items => (annotations_heeds items).bind fun _ => .pure _
  | .error _ => .pure _

theorem annotations_heeds : ∀ ts : List TypeExpr, Heeds o (annotations ts)
  | [] => .pure _
  | t :: ts => (annotation_heeds t).bind fun _ => (annotations_heeds ts).bind fun _ => .pure _

end

/-! Patterns -/

theorem bind_heeds (name : Ident) (scheme : Scheme) (params : List String) (visible : Span)
    (ofModule : Bool) : Heeds o (bind name scheme params visible ofModule) :=
  fun _ _ ⟨hs, _, ht⟩ => ht ▸ ⟨rfl, hs, _, rfl⟩

theorem freshAll_heeds (ps : List Pattern) : Heeds o (freshAll ps) := by
  induction ps with
  | nil => exact .pure _
  | cons p ps ih => exact fresh_heeds.bind fun _ => ih.bind fun _ => .pure _

mutual

theorem bindPattern_heeds (visible : Span) (ofModule : Bool) :
    ∀ (p : Pattern) (t : Ty), Heeds o (bindPattern visible ofModule p t)
  | .named _ name, _ => (bind_heeds name _ _ visible ofModule).bind fun _ => .pure _
  | .wildcard _, _ | .error _, _ => .pure _
  | .unit _, _ => (expect_heeds _ _ _).next (.pure _)
  | .tuple _ items, _ => (freshAll_heeds items).bind fun parts =>
    (expect_heeds _ _ _).next (bindPatterns_heeds visible ofModule items parts)
  | .typed _ inner written, _ => (annotation_heeds written).bind fun annotated =>
    (expect_heeds _ _ _).next (bindPattern_heeds visible ofModule inner annotated)

theorem bindPatterns_heeds (visible : Span) (ofModule : Bool) :
    ∀ (ps : List Pattern) (ts : List Ty), Heeds o (bindPatterns visible ofModule ps ts)
  | p :: ps, t :: ts => (bindPattern_heeds visible ofModule p t).bind fun _ =>
    (bindPatterns_heeds visible ofModule ps ts).bind fun _ => .pure _
  | [], _ | _ :: _, [] => .pure _

end

theorem bindParams_heeds (visible : Span) (ps : List Pattern) (expected : Option Ty) :
    Heeds o (bindParams visible ps expected) := by
  induction ps generalizing expected with
  | nil => exact .pure _
  | cons p ps ih =>
    have hrest (t : Ty) (result? : Option Ty) : Heeds o (bindParamsFrom visible p ps t result?) :=
      (bindPattern_heeds visible false p t).next ((ih result?).bind fun _ => .pure _)
    unfold bindParams
    split
    · exact (shallow_heeds _).bind fun _ => hrest _ _
    · exact fresh_heeds.bind fun _ => hrest _ _

/-! Calls -/

theorem calleeType_heeds (span : Span) (c : Callee) : Heeds o (calleeType span c) := by
  unfold calleeType
  split
  · exact .pure _
  · exact .pure _
  · exact (report_heeds _ rfl).next (.pure _)

theorem callMethod_heeds (name : String) (overloads : List Overload) (args : List Ty) (span : Span) :
    Heeds o (callMethod name overloads args span) := by
  unfold callMethod
  refine .next (.modify ?_ ?_) ?_
  · exact fun _ => rfl
  · exact fun _ _ => ⟨_, rfl⟩
  have hreport (s : CheckerState) : Heeds o (do
      report (.noOverload name (args.map s.store.zonk)) span
      return (Overload.commonReturn? overloads).getD .error) := (report_heeds span rfl).next (.pure _)
  rintro s _ ⟨hs, faults, rfl⟩
  -- the store is the same in both runs, so both choose the same overload
  have hstore : (s.heeding o faults).store = s.store := rfl
  rw [StateT.run_bind, StateT.run_bind, StateT.run_get, StateT.run_get, pure_bind, pure_bind, hstore]
  cases Overload.select args s.store overloads with
  | none => exact hreport s s _ ⟨hs, faults, rfl⟩
  | some chosen => exact ⟨rfl, hs, faults, rfl⟩

theorem notAFunction_heeds (span : Span) : Heeds o (notAFunction span) :=
  (report_heeds _ rfl).next (.pure _)

theorem applyType_heeds (function arg : Ty) (functionSpan argSpan : Span) :
    Heeds o (applyType function arg functionSpan argSpan) := by
  refine (shallow_heeds _).bind fun head => ?_
  split
  · exact (expect_heeds _ _ _).next (.pure _)
  · exact .pure _
  · exact fresh_heeds.bind fun _ => (expect_heeds _ _ _).next (.pure _)
  · exact notAFunction_heeds _

theorem apply_heeds (function : Ty) (functionSpan : Span) {arg : Option Ty → Checker Ty}
    (harg : ∀ expected, Heeds o (arg expected)) (argSpan : Span) (expected : Option Ty) :
    Heeds o (apply function functionSpan arg argSpan expected) := by
  refine (shallow_heeds _).bind fun head => ?_
  split
  case h_1 param ret =>
    have hrest : Heeds o (do
        let _ ← arg (some param)
        return ret) := (harg _).next (.pure _)
    split
    · refine (unifies_heeds _ _).bind fun ok => ?_
      split
      · exact (unify_heeds _ _).next hrest
      · exact hrest
    · exact hrest
  case h_2 => exact (harg _).next (.pure _)
  case h_3 => exact (harg _).bind fun t => applyType_heeds _ _ _ _
  case h_4 => exact (harg _).next (notAFunction_heeds _)

theorem memberCallee_heeds (owner : String) (m : Member) : Heeds o (memberCallee owner m) := by
  unfold memberCallee
  split
  · exact (instantiate_heeds _).bind fun _ => .pure _
  all_goals exact .pure _

theorem entityCallee_heeds (path : String) (name : Ident) : Heeds o (entityCallee path name) := by
  refine .getBind (fun _ _ => rfl) fun s => ?_
  split
  · exact .pure _
  · refine (mention_heeds _ _).next ?_
    split
    · exact (report_heeds _ rfl).next (.pure _)
    · exact .pure _

theorem binderCallee_heeds (index : Nat) (span : Span) : Heeds o (binderCallee index span) := by
  unfold binderCallee
  refine .next (.modify ?_ ?_) ((mention_heeds _ _).next ?_)
  · exact fun _ => rfl
  · exact fun _ _ => ⟨_, rfl⟩
  refine (binderAt_heeds index).bind fun b? => ?_
  split
  · exact .pure _
  · exact (zonk_heeds _).bind fun _ => (instantiate_heeds _).bind fun _ => .pure _

theorem nameCallee_heeds (name : Ident) : Heeds o (nameCallee name) := by
  refine readScope_heeds.next (.getBind (fun _ _ => rfl) fun s => ?_)
  split
  · exact binderCallee_heeds _ _
  · exact (mention_heeds _ _).next (memberCallee_heeds _ _)
  · exact entityCallee_heeds _ _
  · exact (report_heeds _ rfl).next (.pure _)

theorem entityMember_heeds (span dot : Span) (path : String) (name? : Option Ident) :
    Heeds o (entityMember span dot path name?) := by
  refine (recordMember_heeds _).next ?_
  split
  · exact .pure _
  · refine .getBind (fun _ _ => rfl) fun s => ?_
    dsimp only
    split
    · exact entityCallee_heeds _ _
    · split
      · exact (mention_heeds _ _).next (memberCallee_heeds _ _)
      · exact (report_heeds _ rfl).next (.pure _)

theorem valueMember_heeds (span dot : Span) (receiver : Ty) (name? : Option Ident) :
    Heeds o (valueMember span dot receiver name?) := by
  refine (shallow_heeds _).bind fun head => (recordMember_heeds _).next ?_
  split
  · exact .pure _
  · exact .pure _
  · exact (report_heeds _ rfl).next (.pure _)
  · refine .getBind (fun _ _ => rfl) fun s => ?_
    split
    · exact (mention_heeds _ _).next (memberCallee_heeds _ _)
    · exact (zonk_heeds _).bind fun _ => (report_heeds _ rfl).next (.pure _)

theorem formatType_heeds (function : String) (placeholders : List Format.Conversion) :
    Heeds o (formatType function placeholders) := by
  refine Heeds.bind ?_ fun args => ?_
  · induction placeholders with
    | nil => exact .pure _
    | cons c cs ih =>
      rw [List.mapM_cons]
      refine Heeds.bind ?_ fun t => ih.bind fun ts => .pure _
      split
      · exact .pure _
      · exact fresh_heeds
  · split
    · exact .pure _
    · exact fresh_heeds.bind fun _ => .pure _
    · exact .pure _

theorem formatApplication_heeds (function arg : Expr) : Heeds o (formatApplication? function arg) := by
  unfold formatApplication?
  split
  · split
    · exact .pure _
    · refine readScope_heeds.next (.getBind (fun _ _ => rfl) fun s => ?_)
      split
      · refine (mention_heeds _ _).next ?_
        split
        · exact (formatType_heeds _ _).bind fun _ => .pure _
        · refine Heeds.next (report_heeds _ ?_) (.pure _)
          split <;> rfl
      · exact .pure _
  · exact .pure _

/-! Parts of expressions -/

theorem valueOf_heeds (e : Expr) {callee : Checker Callee} (h : Heeds o callee) : Heeds o (valueOf e callee) :=
  h.bind fun _ => calleeType_heeds _ _

theorem settle_heeds (span : Span) (expected : Option Ty) {callee : Checker Callee} (h : Heeds o callee) :
    Heeds o (settle span expected callee) := by
  unfold settle
  split
  · exact h
  · exact h.bind fun _ => (calleeType_heeds _ _).bind fun _ => (expect_heeds _ _ _).next (.pure _)

theorem warnIgnored_heeds (t : Ty) (span : Span) : Heeds o (warnIgnored t span) := by
  refine (shallow_heeds _).bind fun head => ?_
  split
  · exact (unify_heeds _ _).next (.pure _)
  · exact .pure _
  · split
    · exact .pure _
    · exact (zonk_heeds _).bind fun _ => report_heeds _ rfl

theorem warnIfUnused_heeds (h : o.unused = true) (index : Nat) : Heeds o (warnIfUnused index) := by
  refine (binderAt_heeds index).bind fun b? => ?_
  split
  · exact .pure _
  · split
    · exact .pure _
    · exact report_heeds _ h

theorem warnIfUnused_unheeded (h : o.unused = false) (index : Nat) {s t : CheckerState}
    (hstep : s.InStep o t) : (warnIfUnused index).Yields s fun _ s' => s'.InStep o t := by
  simp only [warnIfUnused, yields_bind, yields_binderAt]
  obtain ⟨hs, faults, rfl⟩ := hstep
  have hread : (s.demand .binder (index < s.binders.size)).InStep o (s.heeding o faults) :=
    ⟨hs, faults, rfl⟩
  split
  · exact hread
  · split
    · exact hread
    · exact hread.report (.unused _) h _

theorem warnUnused_heeds (bound : List Nat) : Heeds o (warnUnused bound) := by
  rintro s _ ⟨hs, faults, rfl⟩
  have hseeks : (warnUnused bound).run s = (bound.forM warnIfUnused).run s := by
    simp [warnUnused, hs]
  rw [hseeks]
  cases h : o.unused with
  | true =>
    have hheeded : (warnUnused bound).run (s.heeding o faults) =
        (bound.forM warnIfUnused).run (s.heeding o faults) := by
      simp [warnUnused, CheckerState.heeding, h]
    rw [hheeded]
    exact Heeds.forM (warnIfUnused_heeds h) s _ ⟨hs, faults, rfl⟩
  | false =>
    have hunheeded : (warnUnused bound).run (s.heeding o faults) = ((), s.heeding o faults) := by
      simp [warnUnused, CheckerState.heeding, h]
      rfl
    rw [hunheeded]
    refine ⟨rfl, ?_⟩
    have hstep : s.InStep o (s.heeding o faults) := ⟨hs, faults, rfl⟩
    clear hseeks hunheeded
    generalize s.heeding o faults = t at hstep
    change (bound.forM warnIfUnused).Yields s fun _ s' => s'.InStep o t
    simp only [List.forM_eq_forM]
    clear hs
    induction bound generalizing s with
    | nil => exact hstep
    | cons i bound ih =>
      rw [List.forM_cons]
      exact (warnIfUnused_unheeded h i hstep).bind fun _ s₁ h₁ => ih s₁ h₁

theorem arithmetic_heeds (op : BinaryOp) (t : Ty) (span : Span) : Heeds o (arithmetic op t span) := by
  refine (shallow_heeds _).bind fun head => ?_
  split
  · exact (unify_heeds _ _).next (.pure _)
  · exact .pure _
  · split
    · exact .pure _
    · exact (zonk_heeds _).bind fun _ => (report_heeds _ rfl).next (.pure _)

theorem methodArgs_heeds (arg : Expr) {type : Checker Ty} (h : Heeds o type) :
    Heeds o (methodArgs arg type) := by
  simp only [methodArgs]
  split
  · exact .pure _
  · refine h.bind fun t => ?_
    split <;> exact .pure _
  · exact h.bind fun _ => .pure _

theorem fieldType_heeds (record : Option Entity) (name : Ident) : Heeds o (fieldType? record name) := by
  simp only [fieldType?]
  split
  · exact .pure _
  · split
    · exact (mention_heeds _ _).next (.pure _)
    · exact (report_heeds _ rfl).next (.pure _)

theorem recordOf_heeds (span : Span) (fields : List (Ident × Expr)) : Heeds o (recordOf? span fields) := by
  unfold recordOf?
  split
  · exact (report_heeds _ rfl).next (.pure _)
  · refine .getBind (fun _ _ => rfl) fun s => ?_
    split
    · exact .pure _
    · exact (report_heeds _ rfl).next (.pure _)

/-! Bindings -/

section Bindings

variable {head : LetHead} {body : Expr} {value : Option Ty → Checker Ty}

theorem ownBinder_heeds (head : LetHead) (own : Ty) (stop : Nat) (ofModule : Bool) :
    Heeds o (ownBinder head own stop ofModule) := by
  unfold ownBinder
  split
  · exact (bind_heeds _ _ _ _ _).map _
  · exact .pure _

theorem resultType_heeds (head : LetHead) : Heeds o (resultType head) := by
  unfold resultType
  split
  · exact annotation_heeds _
  · exact fresh_heeds

theorem schemeOf_heeds (ofModule : Bool) (t : Ty) : Heeds o (schemeOf ofModule t) := by
  cases ofModule with
  | true => exact .getBind (fun _ _ => rfl) fun _ => .pure _
  | false => exact .pure _

theorem functionScheme_heeds (hvalue : ∀ expected, Heeds o (value expected)) (head : LetHead) (body : Expr)
    (stop : Nat) (ofModule : Bool) : Heeds o (functionScheme head body value stop ofModule) := by
  refine fresh_heeds.bind fun own => (ownBinder_heeds head own stop ofModule).bind fun recursive => ?_
  have hparts : Heeds o (functionParts head body value) :=
    (bindParams_heeds _ _ _).bind fun r => (resultType_heeds head).bind fun ret => (hvalue _).next (.pure _)
  refine hparts.withScope.bind fun r => (expect_heeds _ _ _).next ?_
  exact (schemeOf_heeds ofModule _).bind fun _ => .pure _

theorem bindFunction_heeds (head : LetHead) (scheme : Scheme) (recursive : Option Nat) (stop : Nat)
    (ofModule : Bool) : Heeds o (bindFunction head scheme recursive stop ofModule) := by
  unfold bindFunction
  split
  · refine .next (.modify ?_ ?_) (.pure _)
    · exact fun _ => rfl
    · exact fun _ _ => ⟨_, rfl⟩
  · exact (bind_heeds _ _ _ _ _).bind fun _ => .pure _
  · exact .pure _

theorem valueType_heeds (hvalue : ∀ expected, Heeds o (value expected)) (head : LetHead) :
    Heeds o (valueType head value) := by
  unfold valueType
  split
  · exact (annotation_heeds _).bind fun t => (hvalue _).next (.pure _)
  · exact hvalue none

theorem bindValue_heeds (head : LetHead) (body : Expr) (t : Ty) (stop : Nat) (ofModule : Bool) :
    Heeds o (bindValue head body t stop ofModule) := by
  unfold bindValue
  split
  · exact (schemeOf_heeds _ t).bind fun _ => (bind_heeds _ _ _ _ _).bind fun _ => .pure _
  · exact bindPattern_heeds _ _ _ _

theorem checkBinding_heeds (hvalue : ∀ expected, Heeds o (value expected)) (head : LetHead) (body : Expr)
    (stop : Nat) (ofModule : Bool) : Heeds o (checkBinding head body value stop ofModule) := by
  cases hfunction : head.isFunction with
  | true =>
    rw [checkBinding_function hfunction]
    exact (functionScheme_heeds hvalue head body stop ofModule).bind fun _ => bindFunction_heeds _ _ _ _ _
  | false =>
    rw [checkBinding_value hfunction]
    exact (valueType_heeds hvalue head).bind fun t => bindValue_heeds head body t stop ofModule

end Bindings

/-! Expressions -/

theorem call_heeds {callee : Expr} {args : List Expr} (hcallee : Heeds o (expr callee none))
    (hargs : ∀ expected, Heeds o (exprs args expected)) (span parens : Span) (expected : Option Ty) :
    Heeds o (expr (.call span callee args parens) expected) := by
  refine settle_heeds span expected (hcallee.bind fun target => (recordCall_heeds _).next ?_)
  split
  · exact (hargs none).bind fun ts => (callMethod_heeds _ _ _ _).bind fun _ => .pure _
  · split
    · exact (applyType_heeds _ _ _ _).bind fun _ => .pure _
    · refine (apply_heeds _ _ (fun e => ?_) _ _).bind fun _ => .pure _
      exact (hargs e).bind fun _ => .pure _
    · exact (hargs none).bind fun ts => (applyType_heeds _ _ _ _).bind fun _ => .pure _

theorem app_heeds {function arg : Expr} (hfunction : Heeds o (expr function none))
    (harg : ∀ expected, Heeds o (expr arg expected)) (span : Span) (expected : Option Ty) :
    Heeds o (expr (.app span function arg) expected) := by
  refine settle_heeds span expected ((formatApplication_heeds function arg).bind fun t? => ?_)
  split
  · exact .pure _
  · refine hfunction.bind fun target => ?_
    split
    · exact (methodArgs_heeds arg (valueOf_heeds arg (harg none))).bind fun ts =>
        (callMethod_heeds _ _ _ _).bind fun _ => .pure _
    · exact (apply_heeds _ _ (fun e => valueOf_heeds arg (harg e)) _ _).bind fun _ => .pure _

theorem pipe_heeds {lhs rhs : Expr} (hlhs : Heeds o (expr lhs none))
    (hrhs : ∀ expected, Heeds o (expr rhs expected)) (span opSpan : Span) (expected : Option Ty) :
    Heeds o (expr (.binary span .pipe opSpan lhs rhs) expected) := by
  refine settle_heeds span expected ((valueOf_heeds lhs hlhs).bind fun arg => ?_)
  split
  · refine (hrhs none).bind fun target => ?_
    split
    · exact (callMethod_heeds _ _ _ _).bind fun _ => .pure _
    · exact (applyType_heeds _ _ _ _).bind fun _ => .pure _
  · exact fresh_heeds.bind fun ret => (hrhs _).next (.pure _)

theorem binary_heeds {op : BinaryOp} {lhs rhs : Expr} (hlhs : ∀ expected, Heeds o (expr lhs expected))
    (hrhs : ∀ expected, Heeds o (expr rhs expected)) (span opSpan : Span) (expected : Option Ty) :
    Heeds o (expr (.binary span op opSpan lhs rhs) expected) := by
  have hatomic (t : Ty) : Heeds o (do
      let _ ← expr lhs (some t)
      let _ ← expr rhs (some t)
      return Callee.value t) := (hlhs _).next ((hrhs _).next (.pure _))
  have hsame (p : Ty → Checker Callee) (hp : ∀ t, Heeds o (p t)) : Heeds o (do
      let t ← valueOf lhs (expr lhs none)
      let _ ← expr rhs (some t)
      p t) := (valueOf_heeds lhs (hlhs none)).bind fun t => (hrhs _).next (hp t)
  have hcompute := hsame (fun t => return .value (← arithmetic op t opSpan)) fun t =>
    (arithmetic_heeds op t opSpan).bind fun _ => .pure _
  have hcompare := hsame (fun _ => return .value .bool) fun _ => .pure _
  cases op with
  | pipe => exact pipe_heeds (hlhs none) hrhs span opSpan expected
  | or | and => exact settle_heeds span expected (hatomic .bool)
  | concat => exact settle_heeds span expected (hatomic .string)
  | eq | notEq | lt | ltEq | gt | gtEq => exact settle_heeds span expected hcompare
  | _ => exact settle_heeds span expected hcompute

theorem conditional_heeds {condition thenBranch : Expr} {elseBranch : Option Expr}
    (hcondition : Heeds o (expr condition (some .bool)))
    (hthen : ∀ expected, Heeds o (expr thenBranch expected))
    (helse : ∀ branch ∈ elseBranch, ∀ expected, Heeds o (expr branch expected)) (span : Span)
    (expected : Option Ty) :
    Heeds o (expr (.conditional span condition thenBranch elseBranch) expected) := by
  cases elseBranch with
  | none => exact settle_heeds span expected (hcondition.next ((hthen _).next (.pure _)))
  | some branch =>
    have hbranches (t : Ty) : Heeds o (do
        let _ ← expr thenBranch (some t)
        let _ ← expr branch (some t)
        return Callee.value t) := (hthen _).next ((helse branch rfl _).next (.pure _))
    refine settle_heeds span expected (hcondition.next ?_)
    cases expected with
    | some t => exact hbranches t
    | none => exact fresh_heeds.bind hbranches

theorem lambda_heeds {body : Expr} (hbody : ∀ expected, Heeds o (expr body expected)) (span : Span)
    (params : List Pattern) (expected : Option Ty) :
    Heeds o (expr (.lambda span params body) expected) := by
  have hresult (ts : List Ty) (ret : Ty) : Heeds o (do
      let _ ← expr body (some ret)
      return Callee.value (.curried ts ret)) := (hbody _).next (.pure _)
  have hrest (expected : Option Ty) : Heeds o (lambdaFrom body.span params (expr body) expected) := by
    refine (bindParams_heeds _ params expected).bind fun r => ?_
    obtain ⟨ts, result?⟩ := r
    cases result? with
    | some t => exact hresult ts t
    | none => exact fresh_heeds.bind (hresult ts)
  refine settle_heeds span expected (Heeds.withScope ?_)
  cases expected with
  | some t => exact ((shallow_heeds t).map some).bind hrest
  | none => exact hrest none

theorem letIn_heeds {value body : Expr} (hvalue : ∀ expected, Heeds o (expr value expected))
    (hbody : ∀ expected, Heeds o (expr body expected)) (span : Span) (head : LetHead)
    (expected : Option Ty) : Heeds o (expr (.letIn span head value body) expected) := by
  refine settle_heeds span expected (Heeds.withScope ?_)
  have hbinding := checkBinding_heeds (fun e => valueOf_heeds value (hvalue e)) head value body.span.stop false
  refine hbinding.bind fun bound => (valueOf_heeds body (hbody expected)).bind fun t => ?_
  exact (warnUnused_heeds bound).next (.pure _)

mutual

theorem expr_heeds : ∀ (e : Expr) (expected : Option Ty), Heeds o (expr e expected)
  | .literal span _, expected | .error span, expected => settle_heeds span expected (.pure _)
  | .ident name, expected => settle_heeds name.span expected (nameCallee_heeds name)
  | .member span target dot name, expected => by
    refine settle_heeds span expected ((entityOf_heeds target).bind fun path? => ?_)
    split
    · exact entityMember_heeds _ _ _ _
    · exact (valueOf_heeds target (expr_heeds target none)).bind fun _ => valueMember_heeds _ _ _ _
  | .call span callee args parens, expected =>
    call_heeds (expr_heeds callee none) (exprs_heeds args) span parens expected
  | .app span function arg, expected =>
    app_heeds (expr_heeds function none) (expr_heeds arg) span expected
  | .neg span operand, expected =>
    settle_heeds span expected <| (valueOf_heeds operand (expr_heeds operand none)).bind fun t =>
      (arithmetic_heeds .sub t span).bind fun _ => .pure _
  | .binary span op opSpan lhs rhs, expected =>
    binary_heeds (expr_heeds lhs) (expr_heeds rhs) span opSpan expected
  | .conditional span condition thenBranch none, expected =>
    conditional_heeds (expr_heeds condition _) (expr_heeds thenBranch) (by simp) span expected
  | .conditional span condition thenBranch (some branch), expected =>
    conditional_heeds (expr_heeds condition _) (expr_heeds thenBranch)
      (fun _ h => by
        obtain rfl := Option.some.inj h
        exact expr_heeds branch) span expected
  | .lambda span params body, expected => lambda_heeds (expr_heeds body) span params expected
  | .letIn span head value body, expected =>
    letIn_heeds (expr_heeds value) (expr_heeds body) span head expected
  | .sequential _ first second, expected => by
    refine (valueOf_heeds first (expr_heeds first none)).bind fun t => (warnIgnored_heeds t _).next ?_
    exact (valueOf_heeds second (expr_heeds second expected)).bind fun _ => .pure _
  | .tuple span items, expected =>
    settle_heeds span expected ((exprs_heeds items none).bind fun _ => .pure _)
  | .list span items, expected =>
    settle_heeds span expected (fresh_heeds.bind fun _ => (exprs_heeds items _).next (.pure _))
  | .record span fields, expected =>
    settle_heeds span expected <| (recordOf_heeds span fields).bind fun record =>
      (exprFields_heeds record fields).next (.pure _)
  | .paren _ inner, expected => expr_heeds inner expected
  | .typed span inner written, expected =>
    settle_heeds span expected <| (annotation_heeds written).bind fun _ =>
      (expr_heeds inner _).next (.pure _)

theorem exprs_heeds : ∀ (es : List Expr) (expected : Option Ty), Heeds o (exprs es expected)
  | [], _ => .pure _
  | e :: es, expected => (valueOf_heeds e (expr_heeds e expected)).bind fun _ =>
    (exprs_heeds es expected).bind fun _ => .pure _

theorem exprFields_heeds (record : Option Entity) :
    ∀ fields : List (Ident × Expr), Heeds o (exprFields record fields)
  | [] => .pure _
  | (name, value) :: fields => (fieldType_heeds record name).bind fun expected =>
    (valueOf_heeds value (expr_heeds value expected)).next (exprFields_heeds record fields)

end

/-! Declarations -/

theorem publish_heeds (binder : Binder) : Heeds o (publish binder) :=
  .modify (fun _ => rfl) fun _ _ => ⟨_, rfl⟩

/-- A binding that shadows another one is recorded only if that is looked for. -/
theorem ifShadowing_heeds {p : Checker α} (hp : Heeds o p) (name : String) (span : Span) (shadows : Bool) :
    Heeds o (do
      if (← get).options.shadowing && shadows then report (.shadowed name) span
      p) := by
  cases shadows with
  | false =>
    simp only [Bool.and_false]
    exact .getBind (fun _ _ => rfl) fun _ => hp
  | true =>
    rintro s _ ⟨hs, faults, rfl⟩
    have hstep : s.InStep o (s.heeding o faults) := ⟨hs, faults, rfl⟩
    simp only [StateT.run_bind, StateT.run_get, pure_bind, Bool.and_true, hs, ↓reduceIte,
      show (s.heeding o faults).options = o from rfl]
    cases h : o.shadowing with
    | true =>
      have hreport : Heeds o (report (.shadowed name) span) := report_heeds span h
      exact hreport.next hp s _ hstep
    | false => exact hp _ _ (hstep.report (.shadowed name) h span)

theorem publishAll_heeds (bound : List Nat) (declared : List String) : Heeds o (publishAll bound declared) := by
  induction bound generalizing declared with
  | nil => exact .pure _
  | cons i bound ih =>
    refine (binderAt_heeds i).bind fun b? => ?_
    split
    · exact ih declared
    · exact ifShadowing_heeds ((publish_heeds _).next (ih _)) _ _ _

/-- The written type variables of a declaration are its own. -/
theorem clearTypeVars_heeds : Heeds o (modify fun s => { s with typeVars := [] } : Checker Unit) :=
  .modify (fun _ => rfl) fun _ _ => ⟨_, rfl⟩

theorem checkModuleBinding_heeds (b : Binding) (stop : Nat) (declared : List String) :
    Heeds o (checkModuleBinding b stop declared) := by
  refine clearTypeVars_heeds.next ?_
  refine (checkBinding_heeds (fun e => valueOf_heeds b.body (expr_heeds b.body e)) _ _ _ _).bind fun bound => ?_
  exact publishAll_heeds bound declared

theorem checkOpen_heeds (span : Span) (name : LongIdent) (stop : Nat) : Heeds o (checkOpen span name stop) := by
  refine .getBind (fun _ _ => rfl) fun s => ?_
  split
  · exact report_heeds _ rfl
  · refine (mentionEntity_heeds _ _).next (.next ?_ (recordRegion_heeds _ _))
    exact .modify (fun _ => rfl) fun _ _ => ⟨_, rfl⟩

theorem declareEntity_heeds (e : Entity) :
    Heeds o (modify fun s => { s with entities := s.entities.declare e } : Checker Unit) :=
  .modify (fun _ => rfl) fun _ _ => ⟨_, rfl⟩

theorem declareNamespaces_heeds (path before : String) (segments : List String) :
    Heeds o (declareNamespaces path before segments) := by
  induction segments generalizing before with
  | nil => exact .pure _
  | cons segment segments ih =>
    unfold declareNamespaces
    refine .getBind (fun _ _ => rfl) fun s => ?_
    dsimp only
    generalize (if before.isEmpty = true then segment else before ++ "." ++ segment) = inner
    split
    · exact (declareEntity_heeds _).next (ih _)
    · exact ih _

theorem enterModule_heeds (path : String) (name : Option Span) (region : Span) :
    Heeds o (enterModule path name region) := by
  have henter : Heeds o (do
      modify fun s => { s with
        entities := s.entities.declare { path, kind := .module, span := name }
        scope.modulePath := pathSegments path }
      recordRegion region path) := by
    refine .next (.modify ?_ ?_) (recordRegion_heeds _ _)
    · exact fun _ => rfl
    · exact fun _ _ => ⟨_, rfl⟩
  refine (declareNamespaces_heeds _ _ _).next ?_
  dsimp only
  split
  · exact (declare_heeds _ _).next henter
  · exact henter

theorem recordFields_heeds (path : String) (fields : List (Ident × TypeExpr)) :
    Heeds o (recordFields path fields) := by
  induction fields with
  | nil => exact .pure _
  | cons field fields ih =>
    exact (annotation_heeds field.2).bind fun t => (declare_heeds _ _).next (ih.bind fun ms => .pure _)

theorem checkType_heeds (name : Ident) (body : TypeBody) : Heeds o (checkType name body) := by
  refine clearTypeVars_heeds.next (.getBind (fun _ _ => rfl) fun s => ?_)
  dsimp only
  split
  case h_1 fields =>
    refine (declareEntity_heeds _).next ((recordFields_heeds _ fields).bind fun members => .next ?_ ?_)
    · exact .modify (fun _ => rfl) fun _ _ => ⟨_, rfl⟩
    · refine .getBind (fun _ _ => rfl) fun s => ?_
      split
      · exact declare_heeds _ _
      · exact .pure _
  case h_2 written =>
    refine (annotation_heeds written).bind fun t => (declare_heeds _ _).next ?_
    exact .modify (fun _ => rfl) fun _ _ => ⟨_, rfl⟩

mutual

theorem decl_heeds (kind : SourceKind) (stop : Nat) :
    ∀ (d : Decl) (declared : List String), Heeds o (decl kind stop d declared)
  | .binding _ b, declared => checkModuleBinding_heeds b stop declared
  | .open span name, _ => (checkOpen_heeds span name stop).next (.pure _)
  | .module span name members, _ =>
    .next (.withScope (.getBind (fun _ _ => rfl) fun _ =>
      (enterModule_heeds _ _ _).next (decls_heeds kind span.stop members []))) (.pure _)
  | .type _ name body, _ => (checkType_heeds name body).next (.pure _)
  | .expr _ e, _ => by
    refine (valueOf_heeds e (expr_heeds e none)).bind fun t => ?_
    split
    · exact (warnIgnored_heeds t _).next (.pure _)
    · exact .pure _
  | .directive _ _, _ | .error _, _ => .pure _

theorem decls_heeds (kind : SourceKind) (stop : Nat) :
    ∀ (ds : List Decl) (declared : List String), Heeds o (decls kind stop ds declared)
  | [], _ => .pure _
  | d :: ds, declared => (decl_heeds kind stop d declared).bind fun declared =>
    decls_heeds kind stop ds declared

end

theorem checkReferences_heeds (file : SyntaxFile) (context : Context) :
    Heeds o (checkReferences file context) := by
  refine .forM fun reference => ?_
  split
  · split
    · exact .pure _
    · exact report_heeds _ rfl
  · exact .pure _

theorem file_heeds (f : SyntaxFile) (context : Context) : Heeds o (file f context) := by
  refine (checkReferences_heeds f context).next (.next (.forM fun p => report_heeds _ rfl) ?_)
  dsimp only
  split
  · exact (enterModule_heeds _ _ _).next (decls_heeds _ _ _ _)
  · exact decls_heeds _ _ _ _

end Checker

/-! Diagnostics -/

/-- What a filter leaves is sorted as it was among the rest. -/
theorem mergeSort_filter {α : Type} {le : α → α → Bool} (htrans : ∀ a b c, le a b → le b c → le a c)
    (htotal : ∀ a b, le a b || le b a) (p : α → Bool) (l : List α) :
    (l.filter p).mergeSort le = (l.mergeSort le).filter p := by
  induction l with
  | nil => simp
  | cons a l ih =>
    obtain ⟨l₁, l₂, hsort, hrest, hbefore⟩ := List.mergeSort_cons htrans htotal a l
    rw [hrest, List.filter_append] at ih
    rw [hsort, List.filter_append]
    cases hp : p a with
    | false =>
      rw [List.filter_cons_of_neg (by simp [hp]), List.filter_cons_of_neg (by simp [hp])]
      exact ih
    | true =>
      rw [List.filter_cons_of_pos hp, List.filter_cons_of_pos hp]
      obtain ⟨m₁, m₂, hsort', hrest', hbefore'⟩ := List.mergeSort_cons htrans htotal a (l.filter p)
      -- both sides are cut in front of the first element that `a` may stand in front of
      have hcut {b₁ b₂ : List α} (h₁ : ∀ b ∈ b₁, !le a b) (h₂ : (a :: b₂).Pairwise (le · ·)) :
          (b₁ ++ b₂).takeWhile (!le a ·) = b₁ := by
        rw [List.takeWhile_append_of_pos h₁]
        cases b₂ with
        | nil => simp
        | cons b b₂ => simp [List.rel_of_pairwise_cons h₂ List.mem_cons_self]
      have hm : (m₁ ++ m₂).takeWhile (!le a ·) = m₁ :=
        hcut hbefore' (List.pairwise_append.mp (hsort' ▸ List.pairwise_mergeSort htrans htotal _)).2.1
      have hl : (l₁.filter p ++ l₂.filter p).takeWhile (!le a ·) = l₁.filter p := by
        refine hcut (fun b hb => hbefore b (List.mem_of_mem_filter hb)) ?_
        have hsorted := (List.pairwise_append.mp (hsort ▸ List.pairwise_mergeSort htrans htotal (a :: l))).2.1
        exact hsorted.sublist ((List.filter_sublist ..).cons_cons a)
      rw [hrest'] at ih
      rw [ih, hl] at hm
      rw [← hm] at ih
      rw [hsort', ← hm, List.append_cancel_left ih]

namespace WarningOptions

/-- Whether the options leave the diagnostic in. -/
def keeps (o : WarningOptions) (d : Diagnostic) : Bool :=
  d.isError || !(o.suppressed.contains d.code || (d.code == "W1182" && !o.unused) ||
    (d.code == "W0064" && !o.shadowing))

/-- The diagnostic with the severity that the options give it. -/
def graded (o : WarningOptions) (d : Diagnostic) : Diagnostic :=
  if o.asErrors then { d with severity := .error } else d

/-- The error as it is reported. -/
def diagnostic (o : WarningOptions) (text : Text) (e : TypeError) : Diagnostic :=
  .located text e.cause.code (o.severity e.cause) e.cause.message e.span

theorem keeps_diagnostic (o : WarningOptions) (text : Text) (e : TypeError) :
    o.keeps (diagnostic {} text e) = (!o.suppresses e.cause && o.seeks e.cause) := by
  cases hcause : e.cause <;>
    simp [keeps, diagnostic, Diagnostic.isError, Diagnostic.located, severity, TypeError.Cause.isWarning,
      TypeError.Cause.code, seeks, suppresses, hcause]

theorem graded_diagnostic (o : WarningOptions) (text : Text) (e : TypeError) :
    o.graded (diagnostic {} text e) = o.diagnostic text e := by
  cases h : e.cause.isWarning <;> cases h' : o.asErrors <;>
    simp [graded, diagnostic, severity, Diagnostic.located, h, h']

theorem graded_span (o : WarningOptions) (d : Diagnostic) : (o.graded d).span = d.span := by
  unfold graded
  split <;> rfl

/-- What is reported of the warnings that are looked for is reported by default, in the same order. -/
theorem diagnostics_eq (o : WarningOptions) (text : Text) (errors : List TypeError) :
    o.diagnostics text (errors.filter fun e => o.seeks e.cause) =
      ((diagnostics {} text errors).filter o.keeps).map o.graded := by
  have hdefault : diagnostics {} text errors =
      (errors.map (diagnostic {} text)).mergeSort fun d e => d.span.start ≤ e.span.start := by
    simp only [diagnostics, suppresses, List.contains_nil, Bool.and_false, Bool.not_false, List.filter_true]
    rfl
  have hreported : (errors.filter fun e => o.seeks e.cause).filter (fun e => !o.suppresses e.cause) =
      errors.filter (o.keeps ∘ diagnostic {} text) := by
    rw [List.filter_filter]
    exact congrArg (errors.filter ·) (funext fun e => (o.keeps_diagnostic text e).symm)
  have hgraded : o.diagnostic text = o.graded ∘ diagnostic {} text :=
    funext fun e => (o.graded_diagnostic text e).symm
  rw [hdefault, ← mergeSort_filter (by simp; omega) (by simp; omega), List.filter_map,
    List.map_mergeSort (s := fun d e => d.span.start ≤ e.span.start) (by simp [graded_span]),
    List.map_map, ← hgraded, ← hreported]
  rfl

end WarningOptions

/-- The state in front of a file. -/
def Context.emptyState (context : Context) (options : WarningOptions) : CheckerState :=
  { entities := { libraries := Catalog.entitiesOf context.libraryNames }, options }

namespace SyntaxFile

variable (f : SyntaxFile) (context : Context) (options : WarningOptions)

theorem check_eq_of_default : f.check context options =
    let s := ((Checker.file f context).run (context.emptyState {})).2
    { s.result f context options with
      diagnostics := options.diagnostics f.text
        (s.records.errors.reverse.filter fun e => options.seeks e.cause) } := by
  obtain ⟨-, -, faults, hstate⟩ := Checker.file_heeds (o := options) f context (context.emptyState {})
    (context.emptyState options) ⟨rfl, [], rfl⟩
  change CheckerState.result ((Checker.file f context).run (context.emptyState options)).2 f context options = _
  rw [hstate]
  simp only [CheckerState.result, CheckerState.heeding, List.filter_reverse]
  rfl

/-- Options about warnings do not change what is found in a file. They leave out the warnings that are
suppressed or not looked for, and say whether the others are errors. -/
theorem check_options : f.check context options =
    { f.check context {} with
      diagnostics := ((f.check context {}).diagnostics.filter options.keeps).map options.graded } := by
  have hdefault := f.check_eq_of_default context {}
  have hseeks (e : TypeError) : WarningOptions.seeks {} e.cause = true := by
    cases e.cause <;> rfl
  simp only [hseeks, List.filter_true] at hdefault
  rw [f.check_eq_of_default context options, hdefault]
  simp only [WarningOptions.diagnostics_eq]
  rfl

end SyntaxFile

end ScriptAnalyzer

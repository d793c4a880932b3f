import ScriptAnalyzer.Proofs.Typing.ExpressionDues
import ScriptAnalyzer.Proofs.Typing.LocalNames

/-!
Checking an expression confines the names that its `let`s bind, whatever is expected of the expression and
whatever is wrong with it.
-/

namespace ScriptAnalyzer

namespace Expr

/-- The names that the expression itself binds for the rest of its scope. -/
def ownLocals : Expr → List Ident
  | letIn _ head _ _ => head.boundNames
  | _ => []

/-- The names that the `let`s in the expression bind. -/
def locals (e : Expr) : List Ident := e.preorder.flatMap ownLocals

theorem locals_eq (e : Expr) : e.locals = e.ownLocals ++ e.children.flatMap locals :=
  flatMap_preorder ownLocals e

theorem locals_of_longName {e : Expr} (h : e.longName?.isSome = true) : e.locals = [] := by
  fun_induction longName? e with
  | case1 n => rfl
  | case2 span target dot last ih =>
    rw [Option.isSome_map] at h
    rw [locals_eq]
    simpa [ownLocals, children] using ih h
  | case3 => cases h

end Expr

namespace Checker

open CheckerState

variable {α : Type} {ns ms : List Ident} {s : CheckerState}

/-! Bindings -/

section

variable {head : LetHead} {body : Expr} {value : Option Ty → Checker Ty} {stop : Nat} {ofModule : Bool}

theorem ownBinder_holds (own : Ty) (hs : s.Marked) :
    (ownBinder head own stop ofModule).Yields s fun r s' => s'.Marked ∧ s.Confines [] s' ∧
      ∀ i ∈ r, s'.Holds [i] head.name?.toList ∧ s.binders.size ≤ i := by
  unfold ownBinder
  split
  case h_1 name _ hname =>
    rw [yields_map]
    have hbrings : Brings (do return [← bind name (.mono own) (head.params.map paramName)
        ⟨head.span.start, stop⟩ ofModule]) [name] [] := bind_brings name _ _
    obtain ⟨hs', hconfines, hholds, hnew⟩ := hbrings s hs
    rw [hname]
    refine ⟨hs', hconfines, fun i hi => ?_⟩
    obtain rfl := Option.some.inj hi
    exact ⟨hholds, hnew _ List.mem_cons_self⟩
  case h_2 => exact ⟨hs, .of_ledger rfl, nofun⟩

theorem resultType_confines (head : LetHead) : (resultType head).Confines [] := by
  unfold resultType
  split
  · exact annotation_confines _
  · exact silent_fresh.confines

theorem functionParts_confines (hvalue : ∀ expected, (value expected).Confines ns) :
    (functionParts head body value).Confines ns := by
  refine (bindParams_confines head.params none).bind fun r => (resultType_confines head).bind fun ret => ?_
  exact (hvalue (some ret)).andThen fun _ => (silent_pure _).confines

theorem rebind_confines (index : Nat) (scheme : Scheme) : (rebind index scheme).Confines [] := by
  intro s hs
  rw [rebind, yields_modify]
  refine ⟨hs.rebind index scheme, ⟨rfl, fun _ => .inl, fun i b hb => ?_, fun _ => ⟨[], .nil, by simp, .refl _⟩⟩,
    ⟨rfl, rfl, rfl⟩, rfl⟩
  simp only [Array.getElem?_modify, hb]
  split
  · exact ⟨_, rfl, rfl, rfl, fun _ => rfl⟩
  · exact ⟨b, rfl, rfl, rfl, fun _ => rfl⟩

theorem bindFunction_holds (scheme : Scheme) {recursive : Option Nat} (hs : s.Marked)
    (hrecursive : ∀ i ∈ recursive, s.Holds [i] head.name?.toList) :
    (bindFunction head scheme recursive stop ofModule).Yields s fun is s' => s'.Marked ∧ s.Confines [] s' ∧
      s'.Holds is head.name?.toList ∧ ∀ i ∈ is, i ∈ recursive ∨ s.binders.size ≤ i := by
  unfold bindFunction
  split
  case h_1 index =>
    refine (rebind_confines index scheme s hs).bind fun _ s' h' => ⟨h'.1, h'.2, ?_, ?_⟩
    · exact h'.2.holds (hrecursive index rfl)
    · exact List.forall_mem_singleton.mpr (.inl rfl)
  case h_2 name hname =>
    rw [hname]
    refine (bind_brings name scheme _ s hs).mono fun is s' h' => ?_
    exact ⟨h'.1, h'.2.1, h'.2.2.1, fun i hi => .inr (h'.2.2.2 i hi)⟩
  case h_3 hname =>
    rw [hname]
    exact ⟨hs, .of_ledger rfl, .nil, nofun⟩

/-- A recursive function has its binder in front of its right-hand side, any other behind it. -/
theorem checkFunction_brings (hhead : head.isFunction = true)
    (hvalue : ∀ expected, (value expected).Confines ns) :
    (checkBinding head body value stop ofModule).Brings head.boundNames ns := by
  rw [checkBinding_function hhead, functionScheme, LetHead.boundNames, if_pos hhead]
  simp only [bind_assoc, pure_bind]
  refine silent_fresh.confines.brings fun own s hs => ?_
  refine (ownBinder_holds own hs).bind fun recursive s₁ h₁ => ?_
  obtain ⟨hs₁, hconfines₁, hheld⟩ := h₁
  have hscheme : Confines (do
      let r ← withScope (functionParts head body value)
      expect (.curried r.1 r.2) own ((head.name?.map (·.span)).getD head.span)
      schemeOf ofModule (.curried r.1 r.2)) ns := by
    refine (functionParts_confines hvalue).withScope.andThen fun r => ?_
    exact (silent_expect _ _ _).confines.bind fun _ => (silent_schemeOf _ _).confines
  have hbound (scheme : Scheme) (s₂ : CheckerState) (h₂ : s₂.Marked ∧ s₁.Confines ns s₂) :
      (bindFunction head scheme recursive stop ofModule).Yields s₂ fun is s' => s'.Marked ∧
        s.Confines ns s' ∧ s'.Holds is head.name?.toList ∧ ∀ i ∈ is, s.binders.size ≤ i := by
    have hbefore := hconfines₁.trans h₂.2
    refine (bindFunction_holds scheme h₂.1 fun i hi => h₂.2.holds (hheld i hi).1).mono fun is s₃ h₃ => ?_
    obtain ⟨hs₃, hconfines₃, hholds, hnew⟩ := h₃
    refine ⟨hs₃, by simpa using hbefore.trans hconfines₃, hholds, fun i hi => ?_⟩
    exact (hnew i hi).elim (fun hi => (hheld i hi).2) hbefore.size_le.trans
  have hboth := Yields.bind (hscheme s₁ hs₁) hbound
  simp only [bind_assoc] at hboth
  exact hboth

theorem valueType_confines (hvalue : ∀ expected, (value expected).Confines ns) :
    (valueType head value).Confines ns := by
  unfold valueType
  split
  · refine (annotation_confines _).bind fun t => ?_
    exact (hvalue (some t)).andThen fun _ => (silent_pure _).confines
  · exact hvalue none

theorem bindValue_brings (head : LetHead) (body : Expr) (stop : Nat) (ofModule : Bool) (t : Ty) :
    (bindValue head body t stop ofModule).Brings head.pattern.boundNames [] := by
  unfold bindValue
  split
  case h_1 span name hpattern =>
    rw [hpattern]
    exact (silent_schemeOf _ _).confines.brings fun scheme => bind_brings name scheme []
  case h_2 => exact bindPattern_brings head.pattern t

theorem checkBinding_brings (hvalue : ∀ expected, (value expected).Confines ns) :
    (checkBinding head body value stop ofModule).Brings head.boundNames ns := by
  cases hhead : head.isFunction with
  | true => exact checkFunction_brings hhead hvalue
  | false =>
    rw [checkBinding_value hhead, LetHead.boundNames, hhead]
    simpa using (valueType_confines hvalue).brings fun t => bindValue_brings head body stop ofModule t

end

/-! Warnings -/

theorem isUnused_of_mem_warnings {is : List Nat} : ∀ e ∈ s.warnings is, e.isUnused = true := by
  intro e he
  obtain ⟨i, -, hwarning⟩ := List.mem_filterMap.mp he
  obtain ⟨b, -, hb⟩ := Option.bind_eq_some_iff.mp hwarning
  unfold Binder.warning? at hb
  split at hb
  · cases hb
  · obtain rfl := Option.some.inj hb
    rfl

theorem warnIfUnused_warns (i : Nat) (s : CheckerState) :
    (warnIfUnused i).Yields s fun _ s' => ∃ faults,
      s' = { s with faults, records.errors := s.warnings [i] ++ s.records.errors } := by
  simp only [warnIfUnused, yields_bind, yields_binderAt]
  split
  case h_1 hnone =>
    have hwarnings : s.warnings [i] = [] := by simp [warnings, hnone]
    exact ⟨_, by rw [hwarnings]; rfl⟩
  case h_2 b hb =>
    have hwarnings : s.warnings [i] = b.warning?.toList := by
      cases hwarning : b.warning? <;> simp [warnings, hb, hwarning]
    rw [hwarnings, Binder.warning?, isUnderscored]
    split
    · exact ⟨_, rfl⟩
    · exact ⟨_, rfl⟩

theorem warnUnused_warns (bound : List Nat) (s : CheckerState) :
    (warnUnused bound).Yields s fun _ s' => ∃ faults errors,
      s' = { s with faults, records.errors := errors ++ s.records.errors } ∧
        (s.options.unused = true → errors.Perm (s.warnings bound)) := by
  have hall : (bound.forM warnIfUnused).Yields s fun _ s' => ∃ faults errors,
      s' = { s with faults, records.errors := errors ++ s.records.errors } ∧
        errors.Perm (s.warnings bound) := by
    rw [List.forM_eq_forM]
    induction bound generalizing s with
    | nil => exact ⟨s.faults, [], rfl, .refl _⟩
    | cons i bound ih =>
      rw [List.forM_cons]
      refine (warnIfUnused_warns i s).bind fun _ s₁ h₁ => ?_
      obtain ⟨faults, rfl⟩ := h₁
      refine (ih _).mono fun _ s' h' => ?_
      obtain ⟨faults', errors, rfl, hperm⟩ := h'
      refine ⟨faults', errors ++ s.warnings [i], by simp, ?_⟩
      have hsplit : s.warnings (i :: bound) = s.warnings [i] ++ s.warnings bound := by
        rw [warnings, warnings, warnings, ← List.filterMap_append, List.singleton_append]
      rw [hsplit]
      exact (hperm.append_right _).trans List.perm_append_comm
  simp only [warnUnused, yields_bind, yields_get]
  split
  case isTrue => exact hall.mono fun _ _ ⟨faults, errors, heq, hperm⟩ => ⟨faults, errors, heq, fun _ => hperm⟩
  case isFalse hoff => exact ⟨s.faults, [], rfl, fun hon => absurd hon hoff⟩

/-! Parts of expressions -/

theorem valueOf_confines (e : Expr) {p : Checker Callee} (hp : p.Confines ns) : (valueOf e p).Confines ns :=
  hp.andThen fun _ => (silent_calleeType _ _).confines

theorem settle_confines (span : Span) (expected : Option Ty) {p : Checker Callee} (hp : p.Confines ns) :
    (settle span expected p).Confines ns := by
  unfold settle
  split
  · exact hp
  · refine hp.andThen fun c => ((silent_calleeType _ c).bind fun t => ?_).confines
    exact (silent_expect _ _ _).bind fun _ => silent_pure _

theorem apply_confines {arg : Option Ty → Checker Ty} (harg : ∀ expected, (arg expected).Confines ns)
    (function : Ty) (functionSpan argSpan : Span) (expected : Option Ty) :
    (apply function functionSpan arg argSpan expected).Confines ns := by
  refine (silent_shallow function).confines.bind fun head => ?_
  split
  case h_1 param ret =>
    have hrest : Confines (do let _ ← arg (some param); return ret) ns :=
      (harg _).andThen fun _ => (silent_pure _).confines
    split
    · refine (silent_unifies _ _).confines.bind fun _ => ?_
      split
      · exact (silent_unify _ _).confines.bind fun _ => hrest
      · exact hrest
    · exact hrest
  case h_2 => exact (harg _).andThen fun _ => (silent_pure _).confines
  case h_3 => exact (harg _).andThen fun _ => (silent_applyType _ _ _ _).confines
  case h_4 => exact (harg _).andThen fun _ => (silent_notAFunction _).confines

/-- The unit in the place of the arguments of a method binds nothing. -/
theorem methodArgs_confines {arg : Expr} {type : Checker Ty} (htype : type.Confines arg.locals) :
    (methodArgs arg type).Confines arg.locals := by
  unfold methodArgs
  dsimp only
  split
  case h_1 span heq =>
    have hnone : arg.locals = [] := by
      split at heq
      · rw [heq]
        rfl
      · rw [heq]
        rfl
    rw [hnone]
    exact (silent_pure _).confines
  case h_2 =>
    refine htype.andThen fun t => ?_
    split
    · exact (silent_pure _).confines
    · exact (silent_pure _).confines
  case h_3 => exact htype.andThen fun _ => (silent_pure _).confines

/-- A format function is applied to a literal, in which nothing is bound. -/
theorem formatApplication_confines (function arg : Expr) (hs : s.Marked) :
    (formatApplication? function arg).Yields s fun t? s' => s'.Marked ∧ s.Confines [] s' ∧
      (t?.isSome = true → function.locals = [] ∧ arg.locals = []) := by
  unfold formatApplication?
  split
  case h_2 => exact ⟨hs, .of_ledger rfl, by rintro ⟨⟩⟩
  case h_1 name span format =>
    refine Yields.mono ((?_ : Confines _ []) s hs) fun _ _ h => ⟨h.1, h.2, fun _ => ⟨rfl, rfl⟩⟩
    split
    · exact (silent_pure _).confines
    · refine silent_readScope.confines.bind fun _ => .getBind fun s => ?_
      split
      · refine (mention_confines _ _).bind fun _ => ?_
        split
        · exact ((silent_formatType _ _).bind fun _ => silent_pure _).confines
        · refine (report_confines _ ?_).andThen fun _ => (silent_pure _).confines
          split <;> rfl
      · exact (silent_pure _).confines

theorem fieldType_confines (record : Option Entity) (name : Ident) : (fieldType? record name).Confines [] := by
  unfold fieldType?
  split
  · exact (silent_pure _).confines
  · dsimp only
    split
    · exact (mention_confines _ _).andThen fun _ => (silent_pure _).confines
    · exact (report_confines _ rfl).andThen fun _ => (silent_pure _).confines

theorem recordOf_confines (span : Span) (fields : List (Ident × Expr)) :
    (recordOf? span fields).Confines [] := by
  unfold recordOf?
  split
  · exact (report_confines _ rfl).andThen fun _ => (silent_pure _).confines
  · refine .getBind fun s => ?_
    split
    · exact (silent_pure _).confines
    · exact (report_confines _ rfl).andThen fun _ => (silent_pure _).confines

/-! Expressions -/

/-- Whatever is expected of the expression, the names that it binds are confined to it. -/
def ConfinesLocals (e : Expr) : Prop := ∀ expected, (expr e expected).Confines e.locals

variable {e : Expr}

theorem ConfinesLocals.value (h : ConfinesLocals e) (expected : Option Ty) :
    (valueOf e (expr e expected)).Confines e.locals :=
  valueOf_confines e (h expected)

theorem exprs_confine {es : List Expr} (h : ∀ e ∈ es, ConfinesLocals e) (expected : Option Ty) :
    (exprs es expected).Confines (es.flatMap Expr.locals) := by
  induction es with
  | nil => exact (silent_pure _).confines
  | cons e es ih =>
    obtain ⟨he, hes⟩ := List.forall_mem_cons.mp h
    exact (he.value expected).bind fun t => (ih hes).andThen fun _ => (silent_pure _).confines

theorem exprFields_confine (record : Option Entity) {fields : List (Ident × Expr)}
    (h : ∀ f ∈ fields, ConfinesLocals f.2) :
    (exprFields record fields).Confines ((fields.map (·.2)).flatMap Expr.locals) := by
  induction fields with
  | nil => exact (silent_pure _).confines
  | cons f fields ih =>
    obtain ⟨hvalue, hvalues⟩ := List.forall_mem_cons.mp h
    refine (fieldType_confines record f.1).bind fun expected => ?_
    exact (hvalue.value expected).bind fun _ => ih hvalues

theorem member_confines {span dot : Span} {target : Expr} {name : Option Ident}
    (htarget : ConfinesLocals target) : ConfinesLocals (.member span target dot name) := by
  intro expected
  have hlocals : (Expr.member span target dot name).locals = target.locals := by
    rw [Expr.locals_eq]
    exact List.append_nil _
  rw [hlocals]
  refine settle_confines span expected fun s hs => ?_
  refine ((entityOf_confines target s hs).and (entityOf_isSome target s)).bind fun path? s₁ h₁ => ?_
  obtain ⟨⟨hs₁, hconfines⟩, hdotted⟩ := h₁
  have hbehind {p : Checker Callee} (hp : p.Confines target.locals) :
      p.Yields s₁ fun _ s' => s'.Marked ∧ s.Confines target.locals s' :=
    (hp s₁ hs₁).mono fun _ _ h => ⟨h.1, hconfines.trans h.2⟩
  cases path? with
  | some path =>
    rw [Expr.locals_of_longName (hdotted rfl)] at hbehind ⊢
    exact hbehind (entityMember_confines span dot path name)
  | none =>
    refine hbehind ?_
    exact (htarget.value none).andThen fun receiver => valueMember_confines span dot receiver name

theorem call_confines {span parens : Span} {callee : Expr} {args : List Expr}
    (hcallee : ConfinesLocals callee) (hargs : ∀ e ∈ args, ConfinesLocals e) :
    ConfinesLocals (.call span callee args parens) := by
  intro expected
  rw [Expr.locals_eq]
  refine settle_confines span expected ((hcallee none).bind fun target => ?_)
  dsimp only
  refine (recordCall_confines _).bind fun _ => ?_
  split
  case h_1 name overloads =>
    refine (exprs_confine hargs none).andThen fun ts => ?_
    exact ((silent_callMethod _ _ _ _).bind fun _ => silent_pure _).confines
  case h_2 t _ =>
    split
    case h_1 hnone =>
      obtain rfl : args = [] := List.head?_eq_none_iff.mp hnone
      exact ((silent_applyType _ _ _ _).bind fun _ => silent_pure _).confines
    case h_2 arg _ _ =>
      refine (apply_confines (fun e => ?_) _ _ _ _).andThen fun _ => (silent_pure _).confines
      exact (exprs_confine hargs e).andThen fun _ => (silent_pure _).confines
    case h_3 =>
      refine (exprs_confine hargs none).andThen fun ts => ?_
      exact ((silent_applyType _ _ _ _).bind fun _ => silent_pure _).confines

theorem app_confines {span : Span} {function arg : Expr} (hfunction : ConfinesLocals function)
    (harg : ConfinesLocals arg) : ConfinesLocals (.app span function arg) := by
  intro expected
  have hlocals : (Expr.app span function arg).locals = function.locals ++ arg.locals := by
    simp [Expr.locals_eq (.app span function arg), Expr.ownLocals, Expr.children]
  rw [hlocals]
  refine settle_confines span expected fun s hs => ?_
  refine (formatApplication_confines function arg hs).bind fun t? s₁ h₁ => ?_
  obtain ⟨hs₁, hconfines, hliteral⟩ := h₁
  have hbehind {p : Checker Callee} (hp : p.Confines (function.locals ++ arg.locals)) :
      p.Yields s₁ fun _ s' => s'.Marked ∧ s.Confines (function.locals ++ arg.locals) s' :=
    (hp s₁ hs₁).mono fun _ _ h => ⟨h.1, hconfines.trans h.2⟩
  cases t? with
  | some t =>
    rw [(hliteral rfl).1, (hliteral rfl).2] at hbehind ⊢
    exact hbehind (silent_pure _).confines
  | none =>
    refine hbehind ((hfunction none).bind fun target => ?_)
    cases target with
    | method name overloads =>
      refine (methodArgs_confines (harg.value none)).andThen fun ts => ?_
      exact ((silent_callMethod _ _ _ _).bind fun _ => silent_pure _).confines
    | value t _ =>
      exact (apply_confines (fun e => harg.value e) t _ _ expected).andThen fun _ => (silent_pure _).confines

theorem binary_confines {span opSpan : Span} (op : BinaryOp) {lhs rhs : Expr} (hlhs : ConfinesLocals lhs)
    (hrhs : ConfinesLocals rhs) : ConfinesLocals (.binary span op opSpan lhs rhs) := by
  intro expected
  have hlocals : (Expr.binary span op opSpan lhs rhs).locals = lhs.locals ++ rhs.locals := by
    simp [Expr.locals_eq (.binary span op opSpan lhs rhs), Expr.ownLocals, Expr.children]
  rw [hlocals]
  refine settle_confines span expected ?_
  have hboth (t : Ty) {q : Checker Callee} (hq : Silent q) : Confines (do
      let _ ← expr lhs (some t)
      let _ ← expr rhs (some t)
      q) (lhs.locals ++ rhs.locals) :=
    (hlhs _).bind fun _ => (hrhs _).andThen fun _ => hq.confines
  split
  case h_1 =>
    refine (hlhs.value none).bind fun arg => ?_
    split
    · refine (hrhs none).andThen fun target => Silent.confines ?_
      split
      · exact (silent_callMethod _ _ _ _).bind fun _ => silent_pure _
      · exact (silent_applyType _ _ _ _).bind fun _ => silent_pure _
    · refine silent_fresh.confines.bind fun ret => ?_
      exact (hrhs _).andThen fun _ => (silent_pure _).confines
  case h_2 => exact hboth .bool (silent_pure _)
  case h_3 => exact hboth .bool (silent_pure _)
  case h_4 => exact hboth .string (silent_pure _)
  case h_5 =>
    refine (hlhs.value none).bind fun t => (hrhs _).andThen fun _ => Silent.confines ?_
    split
    · exact silent_pure _
    · exact (silent_arithmetic _ _ _).bind fun _ => silent_pure _

theorem conditional_confines {span : Span} {condition thenBranch : Expr} {elseBranch : Option Expr}
    (hcondition : ConfinesLocals condition) (hthen : ConfinesLocals thenBranch)
    (helse : ∀ e ∈ elseBranch, ConfinesLocals e) :
    ConfinesLocals (.conditional span condition thenBranch elseBranch) := by
  intro expected
  rw [Expr.locals_eq]
  cases elseBranch with
  | none =>
    refine settle_confines span expected ?_
    exact (hcondition _).bind fun _ => (hthen _).bind fun _ => (silent_pure _).confines
  | some elseBranch =>
    have hbranches (t : Ty) : Confines (do
        let _ ← expr thenBranch (some t)
        let _ ← expr elseBranch (some t)
        return .value t : Checker Callee)
          (thenBranch.locals ++ (some elseBranch).toList.flatMap Expr.locals) := by
      rw [Option.toList_some, List.flatMap_singleton]
      exact (hthen _).bind fun _ => (helse _ rfl _).andThen fun _ => (silent_pure _).confines
    refine settle_confines span expected ((hcondition _).bind fun _ => ?_)
    cases expected with
    | some t => exact hbranches t
    | none => exact silent_fresh.confines.bind hbranches

theorem lambda_confines {span : Span} {params : List Pattern} {body : Expr} (hbody : ConfinesLocals body) :
    ConfinesLocals (.lambda span params body) := by
  intro expected
  have hlocals : (Expr.lambda span params body).locals = body.locals := by
    simp [Expr.locals_eq (.lambda span params body), Expr.ownLocals, Expr.children]
  rw [hlocals]
  refine settle_confines span expected (Confines.withScope ?_)
  have hrest (expected : Option Ty) :
      Confines (lambdaFrom body.span params (expr body) expected) body.locals := by
    refine (bindParams_confines params expected).bind fun r => ?_
    obtain ⟨ts, result?⟩ := r
    have hret (ret : Ty) : Confines (do
        let _ ← expr body (some ret)
        return .value (.curried ts ret) : Checker Callee) body.locals :=
      (hbody (some ret)).andThen fun _ => (silent_pure _).confines
    cases result? with
    | some t => exact hret t
    | none => exact silent_fresh.confines.bind hret
  cases expected with
  | some t => exact (silent_shallow t).confines.bind fun t => hrest (some t)
  | none => exact hrest none

/-- What a binding brings into scope goes out of it behind its body. -/
theorem letIn_confines {span : Span} {head : LetHead} {value body : Expr} (hvalue : ConfinesLocals value)
    (hbody : ConfinesLocals body) : ConfinesLocals (.letIn span head value body) := by
  intro expected
  have hlocals : (Expr.letIn span head value body).locals =
      head.boundNames ++ (value.locals ++ body.locals) := by
    simp [Expr.locals_eq (.letIn span head value body), Expr.ownLocals, Expr.children]
  rw [hlocals]
  refine settle_confines span expected fun s hs => ?_
  simp only [withScope, yields_bind, yields_get, yields_modify, yields_pure]
  refine (checkBinding_brings (fun e => hvalue.value e) s hs).mono fun bound s₁ h₁ => ?_
  obtain ⟨hs₁, hconfines₁, hholds, hnew⟩ := h₁
  refine (hbody.value expected s₁ hs₁).mono fun t s₂ h₂ => ?_
  refine (warnUnused_warns bound s₂).mono fun _ s₃ h₃ => ?_
  obtain ⟨faults, errors, rfl, hwarned⟩ := h₃
  have hconfines₂ := hconfines₁.trans h₂.2
  have hmarked : Marked { s₂ with faults, records.errors := errors ++ s₂.records.errors } :=
    h₂.1.of_same rfl rfl rfl
  refine ⟨hmarked.leave hs hconfines₂.size_le, ?_, ⟨hconfines₂.entities, rfl, rfl⟩, hconfines₂.abbreviations⟩
  refine hconfines₂.toRetires.close hs (h₂.2.holds hholds) hnew rfl rfl fun hunused => ?_
  have hperm := (hwarned hunused).filter TypeError.isUnused
  rw [List.filter_eq_self.mpr isUnused_of_mem_warnings] at hperm
  rw [List.filter_append]
  exact hperm.append_right _

theorem expr_confines (e : Expr) : ConfinesLocals e := by
  induction e using Expr.children_induction with
  | step e ih =>
    have hone {c : Expr} (hchildren : e.children = [c]) (hown : e.ownLocals = []) : e.locals = c.locals := by
      rw [Expr.locals_eq, hchildren, hown]
      exact List.append_nil _
    cases e with
    | literal span l => exact fun expected => settle_confines span expected (silent_pure _).confines
    | ident name => exact fun expected => settle_confines name.span expected (nameCallee_confines name)
    | member span target dot name => exact member_confines (ih target List.mem_cons_self)
    | call span callee args parens =>
      obtain ⟨hcallee, hargs⟩ := List.forall_mem_cons.mp ih
      exact call_confines hcallee hargs
    | app span function arg =>
      exact app_confines (ih function (by simp [Expr.children])) (ih arg (by simp [Expr.children]))
    | neg span inner =>
      intro expected
      rw [hone rfl rfl]
      refine settle_confines span expected (((ih inner List.mem_cons_self).value none).andThen fun t => ?_)
      exact ((silent_arithmetic _ _ _).bind fun _ => silent_pure _).confines
    | binary span op opSpan lhs rhs =>
      exact binary_confines op (ih lhs (by simp [Expr.children])) (ih rhs (by simp [Expr.children]))
    | conditional span condition thenBranch elseBranch =>
      obtain ⟨hcondition, hbranches⟩ := List.forall_mem_cons.mp ih
      obtain ⟨hthen, helse⟩ := List.forall_mem_cons.mp hbranches
      exact conditional_confines hcondition hthen fun e he => helse e (Option.mem_toList.mpr he)
    | lambda span params body => exact lambda_confines (ih body List.mem_cons_self)
    | letIn span head value body =>
      exact letIn_confines (ih value (by simp [Expr.children])) (ih body (by simp [Expr.children]))
    | sequential span first second =>
      intro expected
      have hlocals : (Expr.sequential span first second).locals = first.locals ++ second.locals := by
        simp [Expr.locals_eq (.sequential span first second), Expr.ownLocals, Expr.children]
      rw [hlocals]
      refine ((ih first (by simp [Expr.children])).value none).bind fun t => ?_
      refine (silent_warnIgnored _ _).confines.bind fun _ => ?_
      exact ((ih second (by simp [Expr.children])).value expected).andThen fun _ => (silent_pure _).confines
    | tuple span items =>
      intro expected
      rw [Expr.locals_eq]
      exact settle_confines span expected ((exprs_confine ih none).andThen fun _ => (silent_pure _).confines)
    | list span items =>
      intro expected
      rw [Expr.locals_eq]
      refine settle_confines span expected (silent_fresh.confines.bind fun element => ?_)
      exact (exprs_confine ih (some element)).andThen fun _ => (silent_pure _).confines
    | record span fields =>
      intro expected
      rw [Expr.locals_eq]
      refine settle_confines span expected ((recordOf_confines span fields).bind fun record => ?_)
      have hfields := exprFields_confine record fun f hf => ih f.2 (List.mem_map_of_mem hf)
      exact hfields.andThen fun _ => (silent_pure _).confines
    | paren span inner =>
      intro expected
      rw [hone rfl rfl]
      exact ih inner List.mem_cons_self expected
    | typed span inner written =>
      intro expected
      rw [hone rfl rfl]
      refine settle_confines span expected ((annotation_confines written).bind fun t => ?_)
      exact (ih inner List.mem_cons_self (some t)).andThen fun _ => (silent_pure _).confines
    | error span => exact fun expected => settle_confines span expected (silent_pure _).confines

/-- A binding of a module brings the names of its head into scope, and retires those of its body. -/
theorem moduleBinding_brings (b : Binding) (stop : Nat) :
    (checkBinding b.toLetHead b.body (fun e => valueOf b.body (expr b.body e)) stop true).Brings
      b.toLetHead.boundNames b.body.locals :=
  checkBinding_brings (expr_confines b.body).value

end Checker
end ScriptAnalyzer

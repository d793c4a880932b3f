import ScriptAnalyzer.Proofs.Typing.Constructs

/-!
Expressions without error nodes, checked without an error, lead to live types only.
-/

namespace ScriptAnalyzer

open CheckerState

variable {F : Nat → Prop}

namespace Checker

/-- Checking keeps the scope lucid, and leads to live types. -/
def Flows (F : Nat → Prop) (e : Expr) : Prop :=
  Means F True (Lucid F) (fun _ _ => True) (expr e)

def FlowsAll (F : Nat → Prop) (es : List Expr) : Prop :=
  MeansAll F (Lucid F) (fun _ _ _ => True) es

theorem Flows.infers {e : Expr} (h : Flows F e) : Infers F (Lucid F) (fun _ _ => True)
    fun expected => valueOf e (expr e expected) :=
  Means.infers h e

theorem lucid_keep (s s' : CheckerState) (hframe : s.Frame [] s') (h : s.Lucid F) : s'.Lucid F :=
  h.keep hframe

/-- Where nothing is said about the type, it is enough that the callee is live. -/
theorem flows_of_live {e : Expr} {p : Option Ty → Checker Callee} {span : Span}
    (heq : expr e = fun expected => settle span expected (p expected))
    (h : ∀ expected s, (p expected).Yields s fun c s' =>
      Step F [] s s' (s.Lucid F ∧ ∀ u ∈ expected, u.Live F s.store.size) (c.Live F s'.store.size)
        fun _ => True) : Flows F e := by
  rw [Flows, heq]
  refine Finds.settle span fun expected s => (h expected s).mono fun c s' h => ?_
  refine h.imp id (fun _ => id) fun _ _ σ _ => ?_
  cases c with
  | value t _ => exact trivial
  | method name overloads => exact ⟨trivial, fun _ _ => trivial⟩

theorem flows_member {span dot : Span} {target : Expr} {name : Option Ident}
    (hname : name.isSome = true) (h : Flows F target) : Flows F (.member span target dot name) := by
  refine flows_of_live rfl fun expected s => ?_
  refine (entityOf_step F target s).bind fun path? s₁ h₁ => ?_
  cases path? with
  | some path =>
    refine (entityMember_step F span dot path name s₁).mono fun c s₂ h₂ => ?_
    exact h₁.next (fun _ => trivial) (h₂.imp (fun h => ⟨hname, h.1.1.keep h₁.frame⟩) (fun _ => id)
      fun _ _ _ h _ => h)
  | none =>
    refine (h.infers none s₁).bind fun receiver s₂ h₂ => ?_
    refine (valueMember_step F span dot receiver name s₂).mono fun c s₃ h₃ => ?_
    refine h₁.next (fun _ => trivial) (h₂.next (fun h => ⟨h.1.1.keep h₁.frame, nofun⟩) (h₃.imp
      (fun h => ⟨hname, ?_, h.2⟩) (fun _ => id) fun _ _ _ h _ _ => h))
    exact (h.1.1.1.keep h₁.frame).keep h₂.frame

theorem exprs_length (es : List Expr) (expected : Option Ty) (s : CheckerState) :
    (exprs es expected).Yields s fun ts _ => ts.length = es.length := by
  induction es generalizing s with
  | nil => exact rfl
  | cons e es ih => exact congrArg Nat.succ (ih _)

theorem flows_call {span parens : Span} {callee : Expr} {args : List Expr} (hcallee : Flows F callee)
    (hargs : FlowsAll F args) : Flows F (.call span callee args parens) := by
  refine flows_of_live rfl fun expected s => ?_
  refine (hcallee none s).bind fun target s₁ h₁ => ?_
  refine (recordCall_step F _ s₁).bind fun _ s₂ h₂ => ?_
  have hstart : Step F [] s s₂ (s.Lucid F ∧ ∀ u ∈ expected, u.Live F s.store.size)
      (s₂.Lucid F ∧ target.Live F s₂.store.size) fun _ => True := by
    refine h₁.next (fun h => ⟨h.1, nofun⟩) (h₂.imp (fun _ => trivial) (fun h _ => ⟨?_, ?_⟩) ?_)
    · exact (h.1.1.keep h₁.frame).keep h₂.frame
    · cases target with
      | value t _ => exact h₂.frame.live h.2
      | method name overloads => exact fun o ho => (h.2 o ho).mono h₂.frame.size
    · exact fun _ _ _ _ _ => trivial
  cases target with
  | method name overloads =>
    refine (hargs none s₂).bind fun ts s₃ h₃ => ?_
    refine (callMethod_step F name overloads ts parens s₃).bind fun t s₄ h₄ => ?_
    refine hstart.next id (h₃.next (fun h => ⟨h.2.1, nofun⟩) (h₄.imp (fun h => ⟨?_, h.2⟩) (fun _ => id)
      fun _ _ _ h _ _ => h))
    exact fun o ho => (h.1.2.2 o ho).mono h₃.frame.size
  | value t _ =>
    have applied (arg : Ty) (s₃ : CheckerState) (h₃ : Step F [] s₂ s₃ (s₂.Lucid F)
        (arg.Live F s₃.store.size) fun _ => True) :
        Yields (do return Callee.value (← applyType t arg callee.span parens)) s₃ fun c s' =>
          Step F [] s s' (s.Lucid F ∧ ∀ u ∈ expected, u.Live F s.store.size) (c.Live F s'.store.size)
            fun _ => True := by
      refine (applyType_step F t arg callee.span parens s₃).bind fun ret s₄ h₄ => ?_
      refine hstart.next id (h₃.next (fun h => h.2.1) (h₄.imp (fun h => ⟨?_, h.2⟩) (fun _ => id)
        fun _ _ _ _ _ _ => trivial))
      exact h₃.frame.live h.1.2.2
    cases args with
    | nil => exact applied .unit s₂ (.done (fun _ => Ty.live_unit) fun _ _ => trivial)
    | cons arg rest =>
      cases rest with
      | nil =>
        have harg : Infers F (Lucid F) (fun _ _ => True) fun e =>
            return (← exprs [arg] e).headD .error := by
          intro e s₃
          refine ((hargs e s₃).and (exprs_length [arg] e s₃)).bind fun ts s₄ h₄ => ?_
          obtain ⟨h₄, hlength⟩ := h₄
          obtain ⟨t, rfl⟩ := List.length_eq_one_iff.mp hlength
          exact h₄.imp id (fun _ h => h t (by simp)) fun _ _ _ _ => ⟨trivial, fun _ _ => trivial⟩
        refine (apply_step harg lucid_keep t callee.span arg.span none s₂).bind fun ret s₃ h₃ => ?_
        exact hstart.next id (h₃.imp (fun h => ⟨h.2.1, h.2.2, nofun⟩) (fun _ => id) fun _ _ _ _ _ =>
          trivial)
      | cons second rest =>
        refine (hargs none s₂).bind fun ts s₃ h₃ => applied (.tuple ts) s₃ ?_
        exact h₃.imp (fun h => ⟨h, nofun⟩) (fun _ => Ty.live_tuple.mpr) fun _ _ _ _ => trivial

theorem flows_app {span : Span} {function arg : Expr} (hfunction : Flows F function)
    (harg : Flows F arg) : Flows F (.app span function arg) := by
  refine means_app lucid_keep hfunction harg (fun _ _ _ => trivial) (fun s => ?_)
    fun _ _ _ _ _ => trivial
  exact (formatApplication_step F function arg s).mono fun t? s₁ h₁ =>
    h₁.imp id (fun _ => id) fun _ _ _ _ _ _ => trivial

theorem flows_binary {span opSpan : Span} {op : BinaryOp} {lhs rhs : Expr} (hlhs : Flows F lhs)
    (hrhs : Flows F rhs) : Flows F (.binary span op opSpan lhs rhs) := by
  rcases op.kinds with rfl | hop | rfl | hop | hop
  · exact means_pipe lucid_keep hlhs hrhs (fun _ _ _ => trivial) fun _ _ _ _ _ => trivial
  · exact means_logical lucid_keep hop hlhs hrhs fun _ _ _ => trivial
  · exact means_concat lucid_keep hlhs hrhs fun _ _ _ => trivial
  · exact means_comparison lucid_keep hop hlhs hrhs fun _ _ _ _ => trivial
  · exact means_arithmetic lucid_keep hop hlhs hrhs fun _ _ _ _ _ => trivial

theorem exprFields_step {record : Option Entity} {fields : List (Ident × Expr)}
    (h : ∀ field ∈ fields, Flows F field.2) (s : CheckerState) :
    (exprFields record fields).Yields s fun _ s' =>
      Step F [] s s' (s.Lucid F ∧ ∀ e ∈ record, e ∈ s.entities.all) True fun _ => True := by
  induction fields generalizing s with
  | nil => exact .done (fun _ => trivial) fun _ _ => trivial
  | cons field fields ih =>
    obtain ⟨name, value⟩ := field
    obtain ⟨hvalue, hfields⟩ := List.forall_mem_cons.mp h
    refine (fieldType_step F record name s).bind fun expected s₁ h₁ => ?_
    refine (hvalue.infers expected s₁).bind fun _ s₂ h₂ => ?_
    refine (ih hfields s₂).mono fun _ s₃ h₃ => ?_
    refine h₁.next (fun h e he m hm => h.1.members e (h.2 e he) m hm) (h₂.next (fun h => ?_)
      (h₃.imp (fun h => ⟨?_, fun e he => ?_⟩) (fun _ => id) fun _ _ _ _ _ _ => trivial))
    · exact ⟨h.1.1.keep h₁.frame, h.2⟩
    · exact (h.1.1.1.keep h₁.frame).keep h₂.frame
    · rw [h₂.frame.entities, h₁.frame.entities]
      exact h.1.1.2 e he

theorem flows_record {span : Span} {fields : List (Ident × Expr)}
    (h : ∀ field ∈ fields, Flows F field.2) : Flows F (.record span fields) := by
  refine flows_of_live rfl fun expected s => ?_
  refine (recordOf_step F span fields s).bind fun record s₁ h₁ => ?_
  refine (exprFields_step h s₁).bind fun _ s₂ h₂ => ?_
  refine h₁.next (fun _ => trivial) (h₂.imp (fun h => ⟨h.1.1.keep h₁.frame, fun e he => ?_⟩)
    (fun h _ => ?_) fun _ _ _ h _ => h)
  · obtain ⟨e', he', heq⟩ := h.2
    obtain rfl : e = e' := Option.some.inj (he.symm.trans heq)
    exact h₁.frame.entities ▸ he'
  · obtain ⟨e, -, rfl⟩ := h.2
    exact Ty.live_ofEntityPath _

mutual

theorem expr_flows (F : Nat → Prop) (e : Expr) (hwhole : e.isWhole = true) : Flows F e := by
  match e, hwhole with
  | .literal span l, _ => exact means_literal fun _ => trivial
  | .ident name, _ =>
    refine flows_of_live rfl fun expected s => (nameCallee_step F name s).mono fun c s₁ h₁ => ?_
    exact h₁.imp And.left (fun _ => id) fun _ _ _ h => h
  | .member span target dot name, hwhole =>
    obtain ⟨hname, htarget⟩ := Bool.and_eq_true_iff.mp hwhole
    exact flows_member hname (expr_flows F target htarget)
  | .call span callee args parens, hwhole =>
    obtain ⟨hcallee, hargs⟩ := Bool.and_eq_true_iff.mp hwhole
    exact flows_call (expr_flows F callee hcallee) (exprs_flow F args hargs)
  | .app span function arg, hwhole =>
    obtain ⟨hfunction, harg⟩ := Bool.and_eq_true_iff.mp hwhole
    exact flows_app (expr_flows F function hfunction) (expr_flows F arg harg)
  | .neg span inner, hwhole =>
    exact means_neg (expr_flows F inner hwhole) fun _ _ _ _ => trivial
  | .paren span inner, hwhole => exact expr_flows F inner hwhole
  | .binary span op opSpan lhs rhs, hwhole =>
    obtain ⟨hlhs, hrhs⟩ := Bool.and_eq_true_iff.mp hwhole
    exact flows_binary (expr_flows F lhs hlhs) (expr_flows F rhs hrhs)
  | .sequential span first second, hwhole =>
    obtain ⟨hfirst, hsecond⟩ := Bool.and_eq_true_iff.mp hwhole
    exact means_sequential lucid_keep (expr_flows F first hfirst) (expr_flows F second hsecond)
      fun _ _ _ _ _ => trivial
  | .conditional span condition thenBranch (some elseBranch), hwhole =>
    obtain ⟨hparts, helse⟩ := Bool.and_eq_true_iff.mp hwhole
    obtain ⟨hcondition, hthen⟩ := Bool.and_eq_true_iff.mp hparts
    exact means_conditional lucid_keep (expr_flows F condition hcondition)
      (expr_flows F thenBranch hthen) (expr_flows F elseBranch helse) fun _ _ _ _ _ => trivial
  | .conditional span condition thenBranch none, hwhole =>
    obtain ⟨hparts, -⟩ := Bool.and_eq_true_iff.mp hwhole
    obtain ⟨hcondition, hthen⟩ := Bool.and_eq_true_iff.mp hparts
    exact means_action lucid_keep (expr_flows F condition hcondition)
      (expr_flows F thenBranch hthen) fun _ _ _ => trivial
  | .lambda span params body, hwhole =>
    obtain ⟨hparams, hbody⟩ := Bool.and_eq_true_iff.mp hwhole
    exact means_lambda (J := fun _ => Lucid F) (V := fun _ _ _ => True) (lucid_scoping F) hparams []
      (fun _ _ => expr_flows F body hbody) fun _ _ _ _ _ _ _ _ => trivial
  | .letIn span head value body, hwhole =>
    obtain ⟨hparts, hbody⟩ := Bool.and_eq_true_iff.mp hwhole
    obtain ⟨hhead, hvalue⟩ := Bool.and_eq_true_iff.mp hparts
    exact means_letIn (J := fun _ => Lucid F) (V := fun _ _ _ => True) (W := fun _ _ _ => True)
      (lucid_scoping F) hhead [] (fun _ _ => expr_flows F value hvalue)
      (fun _ _ => expr_flows F body hbody) fun _ _ _ _ _ _ _ => trivial
  | .tuple span items, hwhole => exact means_tuple (exprs_flow F items hwhole) fun _ _ _ => trivial
  | .list span items, hwhole =>
    exact means_list lucid_keep (exprs_flow F items hwhole) fun _ _ _ => trivial
  | .record span fields, hwhole => exact flows_record (fields_flow F fields hwhole)
  | .typed span inner written, hwhole =>
    obtain ⟨hinner, hwritten⟩ := Bool.and_eq_true_iff.mp hwhole
    exact means_typed lucid_keep hwritten (expr_flows F inner hinner) fun _ _ _ _ _ _ => trivial

theorem exprs_flow (F : Nat → Prop) (es : List Expr) (hwhole : Expr.areWhole es = true) :
    FlowsAll F es := by
  match es, hwhole with
  | [], _ => exact meansAll_nil
  | e :: es, hwhole =>
    obtain ⟨he, hes⟩ := Bool.and_eq_true_iff.mp hwhole
    exact meansAll_cons lucid_keep (expr_flows F e he) (exprs_flow F es hes)

theorem fields_flow (F : Nat → Prop) (fields : List (Ident × Expr))
    (hwhole : Expr.fieldsWhole fields = true) : ∀ field ∈ fields, Flows F field.2 := by
  match fields, hwhole with
  | [], _ => exact nofun
  | (name, e) :: fields, hwhole =>
    obtain ⟨he, hfields⟩ := Bool.and_eq_true_iff.mp hwhole
    exact List.forall_mem_cons.mpr ⟨expr_flows F e he, fields_flow F fields hfields⟩

end

end Checker

end ScriptAnalyzer

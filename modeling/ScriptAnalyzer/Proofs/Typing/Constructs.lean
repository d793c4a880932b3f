import ScriptAnalyzer.Proofs.Typing.Calls

/-!
The constructs of expressions. Each lemma takes what holds of the types of the parts to what holds of the
type of the whole, so one induction on expressions is a list of its cases.
-/

namespace ScriptAnalyzer

open CheckerState

variable {F : Nat → Prop}

theorem Literal.type_live (l : Literal) (k : Nat) : l.type.Live F k := by cases l <;> simp [type]

theorem Literal.type_subst (l : Literal) (f : Nat → Ty) : l.type.subst f = l.type := by
  cases l <;> rfl

namespace Checker

variable {M : Prop} {J : CheckerState → Prop} {R T U : Solution → Ty → Prop}

def Finds (F : Nat → Prop) (M : Prop) (J : CheckerState → Prop) (R : Solution → Ty → Prop)
    (p : Option Ty → Checker Callee) : Prop :=
  ∀ expected s, (p expected).Yields s fun c s' =>
    Step F [] s s' (J s ∧ ∀ u ∈ expected, u.Live F s.store.size) (c.Live F s'.store.size) fun σ =>
      c.Typed M σ (R σ)

theorem Finds.settle {p : Option Ty → Checker Callee} (span : Span) (h : Finds F M J R p) :
    Means F M J R fun expected => settle span expected (p expected) :=
  fun expected s => settle_step span And.right (h expected s)

theorem means_literal {span : Span} {l : Literal} (hR : ∀ σ, R σ l.type) :
    Means F M J R (expr (.literal span l)) := by
  refine Finds.settle span fun expected s => .done (fun _ => l.type_live _) fun _ σ => ?_
  have heq := l.type_subst σ.type
  change R σ (l.type.subst σ.type)
  rw [heq]
  exact hR σ

theorem means_neg {span : Span} {operand : Expr} (h : Means F M J T (expr operand))
    (hR : ∀ σ t, T σ t → BinaryOp.sub.SupportsArithmetic t → R σ t) :
    Means F M J R (expr (.neg span operand)) := by
  refine Finds.settle span fun expected s => ?_
  refine (h.infers operand none s).bind fun t s₁ h₁ => ?_
  refine (arithmetic_step F .sub t span s₁).bind fun t' s₂ h₂ => ?_
  refine h₁.next (fun h => ⟨h.1, nofun⟩) (h₂.imp And.right (fun _ => id) fun _ _ σ h₂ hT => ?_)
  exact hR σ _ (h₂.1 ▸ hT.1) (h₂.1 ▸ h₂.2)

section Application

variable (hJ : ∀ s s', s.Frame [] s' → J s → J s')
include hJ

/-- A method is called only where the type of the result is not said anything about. -/
theorem means_app {span : Span} {function arg : Expr} (hfunction : Means F M J T (expr function))
    (harg : Means F M J U (expr arg))
    (hmethod : M → ∀ σ t, R σ t)
    (hformat : ∀ s, (formatApplication? function arg).Yields s fun t? s' =>
      Step F [] s s' (J s) (∀ t ∈ t?, t.Live F s'.store.size) fun σ =>
        ∀ t ∈ t?, R σ (t.subst σ.type))
    (hR : ∀ σ param ret, T σ (.function param ret) → U σ param → R σ ret) :
    Means F M J R (expr (.app span function arg)) := by
  refine Finds.settle span fun expected s => ?_
  refine (hformat s).bind fun t? s₁ h₁ => ?_
  cases t? with
  | some t => exact h₁.imp And.left (fun _ h => h t rfl) fun _ _ σ h => h t rfl
  | none =>
    refine (hfunction none s₁).bind fun c s₂ h₂ => ?_
    have hstart : Step F [] s s₂ (J s ∧ ∀ u ∈ expected, u.Live F s.store.size)
        (c.Live F s₂.store.size) fun σ => c.Typed M σ (T σ) :=
      h₁.next And.left (h₂.imp (fun h => ⟨hJ _ _ h₁.frame h.1.1, nofun⟩) (fun _ => id)
        fun _ _ _ h _ => h.1)
    cases c with
    | method name overloads =>
      have htype := (harg.infers arg none s₂).mono fun t s₃ h₃ =>
        h₃.imp (fun h : J s₂ => ⟨h, nofun⟩) (fun _ => id) fun _ _ _ _ => trivial
      refine (methodArgs_step F arg htype).bind fun ts s₃ h₃ => ?_
      refine (callMethod_step F name overloads ts arg.span s₃).bind fun t s₄ h₄ => ?_
      refine hstart.next id (h₃.next (fun h => ?_) (h₄.imp (fun h => ?_) (fun _ => id) ?_))
      · exact hJ _ _ hstart.frame h.1.1
      · exact ⟨fun o ho => (h.1.2 o ho).mono h₃.frame.size, h.2⟩
      · exact fun _ _ σ _ _ hT => hmethod hT.1 σ _
    | value t _ =>
      refine (apply_step (harg.infers arg) hJ t function.span arg.span expected s₂).bind
        fun ret s₃ h₃ => ?_
      refine hstart.next id (h₃.imp (fun h => ?_) (fun _ => id) fun _ _ σ h hT => ?_)
      · exact ⟨hJ _ _ hstart.frame h.1.1, h.2, fun u hu => hstart.frame.live (h.1.2 u hu)⟩
      · obtain ⟨param, hparam, heq⟩ := h
        exact hR σ param _ (heq ▸ hT) hparam

theorem means_pipe {span opSpan : Span} {lhs rhs : Expr} (hlhs : Means F M J U (expr lhs))
    (hrhs : Means F M J T (expr rhs))
    (hmethod : M → ∀ σ t, R σ t)
    (hR : ∀ σ param ret, U σ param → T σ (.function param ret) → R σ ret) :
    Means F M J R (expr (.binary span .pipe opSpan lhs rhs)) := by
  refine Finds.settle span fun expected s => ?_
  refine (hlhs.infers lhs none s).bind fun arg s₁ h₁ => ?_
  have hstart : Step F [] s s₁ (J s ∧ ∀ u ∈ expected, u.Live F s.store.size) (arg.Live F s₁.store.size)
      fun σ => U σ (arg.subst σ.type) :=
    h₁.imp (fun h => ⟨h.1, nofun⟩) (fun _ => id) fun _ _ _ => And.left
  split
  case isTrue =>
    refine (hrhs none s₁).bind fun c s₂ h₂ => ?_
    cases c with
    | method name overloads =>
      refine (callMethod_step F name overloads [arg] rhs.span s₂).bind fun t s₃ h₃ => ?_
      refine hstart.next id (h₂.next (fun h => ⟨hJ _ _ h₁.frame h.1.1, nofun⟩)
        (h₃.imp (fun h => ⟨h.2, ?_⟩) (fun _ => id) fun _ _ σ _ hT _ => hmethod hT.1.1 σ _))
      exact List.forall_mem_singleton.mpr (h₂.frame.live h.1.2)
    | value t _ =>
      refine (applyType_step F t arg rhs.span lhs.span s₂).bind fun ret s₃ h₃ => ?_
      refine hstart.next id (h₂.next (fun h => ⟨hJ _ _ h₁.frame h.1.1, nofun⟩)
        (h₃.imp (fun h => ⟨h.2, h₂.frame.live h.1.2⟩) (fun _ => id) fun _ _ σ heq hT hU => ?_))
      exact hR σ _ _ hU (heq ▸ hT.1)
  case isFalse =>
    refine (fresh_step F s₁).bind fun ret s₂ h₂ => ?_
    refine (hrhs (some (.function arg ret)) s₂).bind fun _ s₃ h₃ => ?_
    refine hstart.next id (h₂.next (fun _ => trivial) (h₃.imp (fun h => ?_) (fun h _ => ?_) ?_))
    · refine ⟨hJ _ _ h₂.frame (hJ _ _ h₁.frame h.1.1.1), fun u hu => ?_⟩
      exact Option.some.inj hu ▸ Ty.live_function.mpr ⟨h₂.frame.live h.1.2, h.2⟩
    · exact h₃.frame.live h.2
    · exact fun _ _ σ hT _ hU => hR σ _ _ hU (hT.2 _ rfl)

/-! Operators -/

/-- Two operands of the same known type. -/
theorem operands_step {lhs rhs : Expr} (hlhs : Means F M J T (expr lhs))
    (hrhs : Means F M J U (expr rhs)) (t result : Ty) (hclosed : ∀ f, t.subst f = t)
    (ht : ∀ k, t.Live F k) (hresult : ∀ k, result.Live F k)
    (hR : ∀ σ, T σ t → U σ t → R σ (result.subst σ.type)) :
    Finds F M J R fun _ => do
      let _ ← expr lhs (some t)
      let _ ← expr rhs (some t)
      return .value result := by
  intro expected s
  have hlive (k : Nat) : ∀ u ∈ some t, u.Live F k := fun u hu => Option.some.inj hu ▸ ht k
  refine (hlhs (some t) s).bind fun _ s₁ h₁ => ?_
  refine (hrhs (some t) s₁).bind fun _ s₂ h₂ => ?_
  refine h₁.next (fun h => ⟨h.1, hlive _⟩) (h₂.imp (fun h => ⟨hJ _ _ h₁.frame h.1.1, hlive _⟩)
    (fun _ _ => hresult _) fun _ _ σ hU hT => ?_)
  have hU := hU.2 t rfl
  have hT := hT.2 t rfl
  rw [hclosed] at hU hT
  exact hR σ hT hU

theorem means_logical {span opSpan : Span} {op : BinaryOp} {lhs rhs : Expr}
    (hop : op = .or ∨ op = .and) (hlhs : Means F M J T (expr lhs)) (hrhs : Means F M J U (expr rhs))
    (hR : ∀ σ, T σ .bool → U σ .bool → R σ .bool) :
    Means F M J R (expr (.binary span op opSpan lhs rhs)) := by
  have h := operands_step hJ hlhs hrhs .bool .bool (fun _ => rfl) (fun _ => Ty.live_bool)
    (fun _ => Ty.live_bool) hR
  rcases hop with rfl | rfl <;> exact h.settle span

theorem means_concat {span opSpan : Span} {lhs rhs : Expr}
    (hlhs : Means F M J T (expr lhs)) (hrhs : Means F M J U (expr rhs))
    (hR : ∀ σ, T σ .string → U σ .string → R σ .string) :
    Means F M J R (expr (.binary span .concat opSpan lhs rhs)) := by
  have h := operands_step hJ hlhs hrhs .string .string (fun _ => rfl) (fun _ => Ty.live_string)
    (fun _ => Ty.live_string) hR
  exact h.settle span

/-- Two operands of the type of the first. -/
theorem equalOperands_step {lhs rhs : Expr} (hlhs : Means F M J T (expr lhs))
    (hrhs : Means F M J U (expr rhs)) {p : Ty → Checker Callee}
    (hp : ∀ t s, (p t).Yields s fun c s' =>
      Step F [] s s' (t.Live F s.store.size) (c.Live F s'.store.size) fun σ =>
        T σ (t.subst σ.type) → U σ (t.subst σ.type) → c.Typed M σ (R σ)) :
    Finds F M J R (fun _ => do
      let t ← valueOf lhs (expr lhs none)
      let _ ← expr rhs (some t)
      p t) := by
  intro expected s
  refine (hlhs.infers lhs none s).bind fun t s₁ h₁ => ?_
  refine (hrhs (some t) s₁).bind fun _ s₂ h₂ => ?_
  refine (hp t s₂).mono fun c s₃ h₃ => ?_
  refine h₁.next (fun h => ⟨h.1, nofun⟩) (h₂.next (fun h => ?_) (h₃.imp (fun h => ?_) (fun _ => id) ?_))
  · exact ⟨hJ _ _ h₁.frame h.1.1, fun u hu => Option.some.inj hu ▸ h.2⟩
  · exact h₂.frame.live h.1.2
  · exact fun _ _ σ h hU hT => h hT.1 (hU.2 t rfl)

theorem means_comparison {span opSpan : Span} {op : BinaryOp} {lhs rhs : Expr}
    (hop : op.isComparison = true) (hlhs : Means F M J T (expr lhs)) (hrhs : Means F M J U (expr rhs))
    (hR : ∀ σ t, T σ t → U σ t → R σ .bool) :
    Means F M J R (expr (.binary span op opSpan lhs rhs)) := by
  have h := equalOperands_step hJ hlhs hrhs (R := R) (p := fun _ => return .value .bool)
    fun t s => .done (fun _ => Ty.live_bool) fun _ σ => hR σ _
  cases op <;> first | exact h.settle span | cases hop

theorem means_arithmetic {span opSpan : Span} {op : BinaryOp} {lhs rhs : Expr}
    (hop : op.isArithmetic = true) (hlhs : Means F M J T (expr lhs)) (hrhs : Means F M J U (expr rhs))
    (hR : ∀ σ t, op.SupportsArithmetic t → T σ t → U σ t → R σ t) :
    Means F M J R (expr (.binary span op opSpan lhs rhs)) := by
  have h := equalOperands_step hJ hlhs hrhs (R := R)
    (p := fun t => return .value (← arithmetic op t opSpan)) fun t s => by
      refine (arithmetic_step F op t opSpan s).bind fun t' s₁ h₁ => ?_
      refine h₁.imp id (fun _ => id) fun _ _ σ ⟨heq, hsupports⟩ hT hU => ?_
      change R σ (t'.subst σ.type)
      exact heq ▸ hR σ _ hsupports hT hU
  cases op <;> first | exact h.settle span | cases hop

/-! Branches and sequences -/

theorem means_conditional {span : Span} {condition thenBranch elseBranch : Expr}
    {C : Solution → Ty → Prop} (hcondition : Means F M J C (expr condition))
    (hthen : Means F M J T (expr thenBranch)) (helse : Means F M J U (expr elseBranch))
    (hR : ∀ σ t, C σ .bool → T σ t → U σ t → R σ t) :
    Means F M J R (expr (.conditional span condition thenBranch (some elseBranch))) := by
  refine Finds.settle span fun expected s => ?_
  refine (hcondition (some .bool) s).bind fun _ s₁ h₁ => ?_
  have hcondition : Step F [] s s₁ (J s ∧ ∀ u ∈ expected, u.Live F s.store.size)
      (∀ u ∈ expected, u.Live F s₁.store.size) fun σ => C σ .bool :=
    h₁.imp (fun h => ⟨h.1, fun u hu => Option.some.inj hu ▸ Ty.live_bool⟩)
      (fun h _ u hu => h₁.frame.live (h.2 u hu)) fun _ _ σ h => h.2 .bool rfl
  have branches (t : Ty) (s₂ : CheckerState) (h₂ : Step F [] s s₂
      (J s ∧ ∀ u ∈ expected, u.Live F s.store.size) (t.Live F s₂.store.size) fun σ => C σ .bool) :
      Yields (do
        let _ ← expr thenBranch (some t)
        let _ ← expr elseBranch (some t)
        return Callee.value t) s₂ fun c s' =>
          Step F [] s s' (J s ∧ ∀ u ∈ expected, u.Live F s.store.size) (c.Live F s'.store.size)
            fun σ => c.Typed M σ (R σ) := by
    refine (hthen (some t) s₂).bind fun _ s₃ h₃ => ?_
    refine (helse (some t) s₃).bind fun _ s₄ h₄ => ?_
    refine h₂.next id (h₃.next (fun h => ?_) (h₄.imp (fun h => ?_) (fun h _ => ?_) ?_))
    · exact ⟨hJ _ _ h₂.frame h.1.1, fun u hu => Option.some.inj hu ▸ h.2⟩
    · refine ⟨hJ _ _ h₃.frame (hJ _ _ h₂.frame h.1.1.1), fun u hu => ?_⟩
      exact Option.some.inj hu ▸ h₃.frame.live h.1.2
    · exact h₄.frame.live (h₃.frame.live h.1.2)
    · exact fun _ _ σ hU hT hC => hR σ _ hC (hT.2 t rfl) (hU.2 t rfl)
  cases expected with
  | some t => exact branches t s₁ (hcondition.imp id (fun _ h => h t rfl) fun _ _ _ h => h)
  | none =>
    refine (fresh_step F s₁).bind fun t s₂ h₂ => branches t s₂ ?_
    exact hcondition.next id (h₂.imp (fun _ => trivial) (fun _ => id) fun _ _ _ _ h => h)

theorem means_action {span : Span} {condition thenBranch : Expr}
    (hcondition : Means F M J T (expr condition)) (hthen : Means F M J U (expr thenBranch))
    (hR : ∀ σ, T σ .bool → U σ .unit → R σ .unit) :
    Means F M J R (expr (.conditional span condition thenBranch none)) := by
  refine Finds.settle span fun expected s => ?_
  refine (hcondition (some .bool) s).bind fun _ s₁ h₁ => ?_
  refine (hthen (some .unit) s₁).bind fun _ s₂ h₂ => ?_
  refine h₁.next (fun h => ⟨h.1, fun u hu => ?_⟩) (h₂.imp (fun h => ⟨?_, fun u hu => ?_⟩) (fun _ _ => ?_) ?_)
  · exact Option.some.inj hu ▸ Ty.live_bool
  · exact hJ _ _ h₁.frame h.1.1
  · exact Option.some.inj hu ▸ Ty.live_unit
  · exact Ty.live_unit
  · exact fun _ _ σ hU hT => hR σ (hT.2 .bool rfl) (hU.2 .unit rfl)

theorem means_sequential {span : Span} {first second : Expr} (hfirst : Means F M J T (expr first))
    (hsecond : Means F M J U (expr second)) (hR : ∀ σ t ret, T σ t → U σ ret → R σ ret) :
    Means F M J R (expr (.sequential span first second)) := by
  intro expected s
  refine (hfirst.infers first none s).bind fun t s₁ h₁ => ?_
  refine (warnIgnored_step F t first.span s₁).bind fun _ s₂ h₂ => ?_
  refine (hsecond.infers second expected s₂).bind fun ret s₃ h₃ => ?_
  refine h₁.next (fun h => ⟨h.1, nofun⟩) (h₂.next And.right (h₃.imp (fun h => ⟨?_, fun u hu => ?_⟩)
    (fun _ => id) ?_))
  · exact hJ _ _ h₂.frame (hJ _ _ h₁.frame h.1.1.1)
  · exact h₂.frame.live (h₁.frame.live (h.1.1.2 u hu))
  · exact fun _ _ σ hU _ hT => ⟨hR σ _ _ hT.1 hU.1, fun u hu => hR σ _ _ hT.1 (hU.2 u hu)⟩

/-! Tuples and lists -/

/-- The types of expressions that are checked against the same expected type. -/
def MeansAll (F : Nat → Prop) (J : CheckerState → Prop) (T : Expr → Solution → Ty → Prop)
    (es : List Expr) : Prop :=
  ∀ expected s, (exprs es expected).Yields s fun ts s' =>
    Step F [] s s' (J s ∧ ∀ u ∈ expected, u.Live F s.store.size) (∀ t ∈ ts, t.Live F s'.store.size)
      fun σ => List.Forall₂ (fun e t => T e σ (t.subst σ.type)) es ts ∧
        ∀ u ∈ expected, ∀ e ∈ es, T e σ (u.subst σ.type)

omit hJ in
theorem meansAll_nil {T : Expr → Solution → Ty → Prop} : MeansAll F J T [] :=
  fun _ _ => .done (fun _ => nofun) fun _ _ => ⟨.nil, fun _ _ => nofun⟩

theorem meansAll_cons {T : Expr → Solution → Ty → Prop} {e : Expr} {es : List Expr}
    (h : Means F M J (T e) (expr e)) (hrest : MeansAll F J T es) : MeansAll F J T (e :: es) := by
  intro expected s
  refine (h.infers e expected s).bind fun t s₁ h₁ => ?_
  refine (hrest expected s₁).bind fun ts s₂ h₂ => ?_
  refine h₁.next id (h₂.imp (fun h => ?_) (fun h hts => ?_) fun _ _ σ hts ht => ?_)
  · exact ⟨hJ _ _ h₁.frame h.1.1, fun u hu => h₁.frame.live (h.1.2 u hu)⟩
  · exact List.forall_mem_cons.mpr ⟨h₂.frame.live h.2, hts⟩
  · exact ⟨.cons ht.1 hts.1, fun u hu => List.forall_mem_cons.mpr ⟨ht.2 u hu, hts.2 u hu⟩⟩

omit hJ in
theorem means_tuple {T : Expr → Solution → Ty → Prop} {span : Span} {items : List Expr}
    (h : MeansAll F J T items)
    (hR : ∀ σ ts, List.Forall₂ (fun e t => T e σ t) items ts → R σ (.tuple ts)) :
    Means F M J R (expr (.tuple span items)) := by
  refine Finds.settle span fun expected s => ?_
  refine (h none s).bind fun ts s₁ h₁ => ?_
  refine h₁.imp (fun h => ⟨h.1, nofun⟩) (fun _ => Ty.live_tuple.mpr) fun _ _ σ h => ?_
  change R σ (.tuple (Ty.substAll σ.type ts))
  rw [Ty.substAll_eq]
  exact hR σ _ (List.forall₂_map_right_iff.mpr h.1)

theorem means_list {T : Expr → Solution → Ty → Prop} {span : Span} {items : List Expr}
    (h : MeansAll F J T items) (hR : ∀ σ t, (∀ e ∈ items, T e σ t) → R σ (.list t)) :
    Means F M J R (expr (.list span items)) := by
  refine Finds.settle span fun expected s => ?_
  refine (fresh_step F s).bind fun element s₁ h₁ => ?_
  refine (h (some element) s₁).bind fun _ s₂ h₂ => ?_
  refine h₁.next (fun _ => trivial) (h₂.imp (fun h => ?_) (fun h _ => ?_) fun _ _ σ h _ => ?_)
  · exact ⟨hJ _ _ h₁.frame h.1.1, fun u hu => Option.some.inj hu ▸ h.2⟩
  · exact Ty.live_list.mpr (h₂.frame.live h.2)
  · exact hR σ _ (h.2 element rfl)

/-! Annotations -/

theorem means_typed {span : Span} {inner : Expr} {written : TypeExpr} (hwhole : written.isWhole = true)
    (h : Means F M J T (expr inner))
    (hR : ∀ s σ t, J s → T σ t → Denotes (s.typeNames σ) written t → R σ t) :
    Means F M J R (expr (.typed span inner written)) := by
  refine Finds.settle span fun expected s => ?_
  refine (annotation_step F written s).bind fun t s₁ h₁ => ?_
  refine (h (some t) s₁).bind fun _ s₂ h₂ => ?_
  refine h₁.next (fun _ => hwhole) (h₂.imp (fun h => ?_) (fun h _ => h₂.frame.live h.2) ?_)
  · exact ⟨hJ _ _ h₁.frame h.1.1, fun u hu => Option.some.inj hu ▸ h.2⟩
  · exact fun h _ σ hT hwritten => hR s σ _ h.1.1 (hT.2 t rfl) hwritten

end Application

/-! Functions and local bindings -/

section Binding

variable {J : Environment → CheckerState → Prop} {V W : Solution → Environment → Ty → Prop}

theorem means_lambda (hJ : Scoping F J) {span : Span} {params : List Pattern} {body : Expr}
    (hwhole : Pattern.areWhole params = true) (Γ : Environment)
    (hbody : ∀ Γ' : Environment,
      Γ'.map (·.1) = ((Pattern.boundNamesOfAll params).map (·.text)).reverse →
        Means F M (J (Γ' ++ Γ)) (fun σ => V σ (Environment.under σ (Γ' ++ Γ))) (expr body))
    (hR : ∀ s σ (Γ' : Environment) ts ret, J Γ s → HasPatterns (s.typeNames σ) params ts Γ' →
      V σ (Γ'.reverse ++ Γ.under σ) ret → R σ (.curried ts ret)) :
    Means F M (J Γ) R (expr (.lambda span params body)) := by
  refine Finds.settle span fun expected s => withScope_step ?_ fun _ _ _ h => h
  have within (expected? : Option Ty) (s₁ : CheckerState) (h₁ : Step F [] s s₁
      (J Γ s ∧ ∀ u ∈ expected, u.Live F s.store.size) (∀ u ∈ expected?, u.Live F s₁.store.size)
      fun _ => True) :
      (lambdaFrom body.span params (expr body) expected?).Yields s₁ fun c s' => ∃ bound,
        Step F bound s s' (J Γ s ∧ ∀ u ∈ expected, u.Live F s.store.size) (c.Live F s'.store.size)
          fun σ => c.Typed M σ (R σ) := by
    refine (bindParams_step F body.span params expected? s₁).bind fun r s₂ h₂ => ?_
    obtain ⟨ts, result?⟩ := r
    obtain ⟨bound, Γ', hmono, hnames, h₂⟩ := h₂
    have finish (ret : Ty) (s₃ : CheckerState) (h₃ : Step F [] s₂ s₃
        (∀ u ∈ result?, u.Live F s₂.store.size) (ret.Live F s₃.store.size) fun _ => True) :
        Yields (do
          let _ ← expr body (some ret)
          return Callee.value (.curried ts ret)) s₃ fun c s' => ∃ bound,
            Step F bound s s' (J Γ s ∧ ∀ u ∈ expected, u.Live F s.store.size)
              (c.Live F s'.store.size) fun σ => c.Typed M σ (R σ) := by
      refine (hbody Γ'.reverse (by simp [hnames]) (some ret) s₃).bind fun _ s₄ h₄ =>
        ⟨[] ++ (bound ++ ([] ++ [])), ?_⟩
      refine h₁.next id (h₂.next (fun h => ⟨hwhole, h.2⟩) (h₃.next (fun h => h.2.2.1)
        (h₄.imp (fun h => ?_) (fun h _ => ?_) ?_)))
      · refine ⟨hJ.keep h₃.frame (hJ h₂.frame hmono h.1.2.2.2 (hJ.keep h₁.frame h.1.1.1.1)), ?_⟩
        exact fun u hu => Option.some.inj hu ▸ h.2
      · refine Ty.live_curried.mpr ⟨fun t ht => ?_, h₄.frame.live h.2⟩
        exact h₄.frame.live (h₃.frame.live (h.1.2.1 t ht))
      · intro h _ σ hV _ hparams _
        have hbody : V σ (Environment.under σ (Γ'.reverse ++ Γ)) (ret.subst σ.type) := hV.2 ret rfl
        rw [Environment.under_append, Environment.under_reverse] at hbody
        rw [h₁.frame.typeNames] at hparams
        change R σ ((Ty.curried ts ret).subst σ.type)
        rw [Ty.subst_curried]
        exact hR s σ _ _ _ h.1.1.1.1 hparams hbody
    cases result? with
    | some t => exact finish t s₂ (.done (fun h => h t rfl) fun _ _ => trivial)
    | none =>
      refine (fresh_step F s₂).bind fun ret s₃ h₃ => finish ret s₃ ?_
      exact h₃.imp (fun _ => trivial) (fun _ => id) fun _ _ _ h => h
  cases expected with
  | none => exact within none s (.done (fun _ => (by simp)) fun _ _ => trivial)
  | some t =>
    refine within (some (s.store.shallow t)) s (.here fun h hs => ⟨fun u hu => ?_, fun _ _ => trivial⟩)
    exact Option.some.inj hu ▸ TypeStore.live_shallow hs.closed (h.2 t rfl)

theorem means_letIn (hJ : Scoping F J) {span : Span} {head : LetHead} {value body : Expr}
    (hwhole : head.isWhole = true) (Γ : Environment)
    (hvalue : ∀ Γ' : Environment, Γ'.map (·.1) = head.innerNames →
      Means F M (J (Γ' ++ Γ)) (fun σ => V σ (Environment.under σ (Γ' ++ Γ))) (expr value))
    (hbody : ∀ Γ' : Environment, Γ'.map (·.1) = (head.boundNames.map (·.text)).reverse →
      Means F M (J (Γ' ++ Γ)) (fun σ => W σ (Environment.under σ (Γ' ++ Γ))) (expr body))
    (hR : ∀ s σ (Γ' : Environment) t, J Γ s →
      ((if head.isFunction then head.pattern.isNamed else !head.isRec) = true →
        HasBinding (s.typeNames σ) (V σ) (Γ.under σ) head Γ') →
      W σ (Γ'.reverse ++ Γ.under σ) t → R σ t) :
    Means F M (J Γ) R (expr (.letIn span head value body)) := by
  refine Finds.settle span fun expected s => withScope_step ?_ fun _ _ _ h => h
  have hinner : InfersValue F J V (fun e => valueOf value (expr value e)) head.innerNames Γ :=
    fun Γ' hΓ' => (hvalue Γ' hΓ').infers value
  refine (checkBinding_step hJ head Γ hinner value body.span.stop false s).bind fun bound s₁ h₁ => ?_
  obtain ⟨Γ', hmono, hnames, h₁⟩ := h₁
  have hbody := (hbody Γ'.reverse (by rw [List.map_reverse, hnames])).infers body
  refine (hbody expected s₁).bind fun t s₂ h₂ => ?_
  refine (warnUnused_step F bound s₂).bind fun _ s₃ h₃ => ⟨bound ++ ([] ++ []), ?_⟩
  refine h₁.next (fun h => ⟨h.1, hwhole⟩) (h₂.next (fun h => ?_) (h₃.imp (fun _ => trivial) (fun h _ => ?_) ?_))
  · refine ⟨hJ h₁.frame (hmono rfl) h.2 h.1.1, fun u hu => h₁.frame.live (h.1.2 u hu)⟩
  · exact h₃.frame.live h.2
  · intro h _ σ _ hW hbinding
    have hbody : W σ (Environment.under σ (Γ'.reverse ++ Γ)) (t.subst σ.type) := hW.1
    rw [Environment.under_append, Environment.under_reverse] at hbody
    exact hR s σ _ _ h.1.1.1 (hbinding rfl) hbody

end Binding

end Checker

end ScriptAnalyzer

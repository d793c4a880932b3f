import ScriptAnalyzer.Proofs.Typing.Constraints

namespace ScriptAnalyzer

open CheckerState

variable {F : Nat → Prop} {k : Nat}

def Callee.Live (F : Nat → Prop) (k : Nat) : Callee → Prop
  | .value t _ => t.Live F k
  | .method _ overloads => ∀ o ∈ overloads, o.Live F k

/-- What holds of the type of a callee under a solution, and `M` if the callee is a method. -/
def Callee.Typed (M : Prop) (σ : Solution) (T : Ty → Prop) : Callee → Prop
  | .value t _ => T (t.subst σ.type)
  | .method _ overloads => M ∧ ∀ o ∈ overloads, T (o.functionType.subst σ.type)

namespace Checker

variable {M : Prop} {J : CheckerState → Prop} {T : Solution → Ty → Prop} {s s' : CheckerState}

/-- In states of `J` the checker finds a live type of which `T` holds under every solution; with an
expected type, `T` holds of that one as well. -/
def Infers (F : Nat → Prop) (J : CheckerState → Prop) (T : Solution → Ty → Prop)
    (p : Option Ty → Checker Ty) : Prop :=
  ∀ expected s, (p expected).Yields s fun t s' =>
    Step F [] s s' (J s ∧ ∀ u ∈ expected, u.Live F s.store.size) (t.Live F s'.store.size) fun σ =>
      T σ (t.subst σ.type) ∧ ∀ u ∈ expected, T σ (u.subst σ.type)

def Means (F : Nat → Prop) (M : Prop) (J : CheckerState → Prop) (T : Solution → Ty → Prop)
    (p : Option Ty → Checker Callee) : Prop :=
  ∀ expected s, (p expected).Yields s fun c s' =>
    Step F [] s s' (J s ∧ ∀ u ∈ expected, u.Live F s.store.size) (c.Live F s'.store.size) fun σ =>
      c.Typed M σ (T σ) ∧ ∀ u ∈ expected, T σ (u.subst σ.type)

theorem Means.imp {p : Option Ty → Checker Callee} {T' : Solution → Ty → Prop} (h : Means F M J T p)
    (hT : ∀ σ t, T σ t → T' σ t) : Means F M J T' p := by
  intro expected s
  refine (h expected s).mono fun c s₁ h₁ => h₁.imp id (fun _ => id) fun _ _ σ h => ⟨?_, ?_⟩
  · cases c with
    | value t _ => exact hT σ _ h.1
    | method name overloads => exact ⟨h.1.1, fun o ho => hT σ _ (h.1.2 o ho)⟩
  · exact fun u hu => hT σ _ (h.2 u hu)

variable (F) in
theorem calleeType_step (span : Span) (c : Callee) (s : CheckerState) :
    (calleeType span c).Yields s fun t s' =>
      Step F [] s s' (c.Live F s.store.size) (t.Live F s'.store.size) fun σ =>
        ∀ M P, c.Typed M σ P → P (t.subst σ.type) := by
  unfold calleeType
  split
  case h_1 t signatures => exact .done id fun _ σ M P h => h
  case h_2 name o =>
    exact .done (fun h => (h o (by simp)).functionType) fun _ σ M P h => h.2 o (by simp)
  case h_3 name overloads _ =>
    refine (report_step F _ span s rfl).bind fun _ s₁ h₁ => ?_
    exact h₁.imp (fun _ => trivial) (fun _ => False.elim) fun _ => False.elim

theorem Means.infers {p : Option Ty → Checker Callee} (h : Means F M J T p) (e : Expr) :
    Infers F J T fun expected => valueOf e (p expected) := by
  intro expected s
  refine (h expected s).bind fun c s₁ h₁ => ?_
  refine (calleeType_step F e.bare.span c s₁).mono fun t s₂ h₂ => ?_
  refine h₁.next id (h₂.imp And.right (fun _ => id) fun _ _ σ hT hc => ?_)
  exact ⟨hT _ _ hc.1, hc.2⟩

theorem settle_step {p : Checker Callee} {pre : Prop} (span : Span) {expected : Option Ty}
    (hpre : pre → ∀ u ∈ expected, u.Live F s.store.size)
    (h : p.Yields s fun c s' =>
      Step F [] s s' pre (c.Live F s'.store.size) fun σ => c.Typed M σ (T σ)) :
    (settle span expected p).Yields s fun c s' =>
      Step F [] s s' pre (c.Live F s'.store.size) fun σ =>
        c.Typed M σ (T σ) ∧ ∀ u ∈ expected, T σ (u.subst σ.type) := by
  cases expected with
  | none => exact h.mono fun c s₁ h₁ => h₁.imp id (fun _ => id) fun _ _ σ h => ⟨h, nofun⟩
  | some t =>
    refine h.bind fun c s₁ h₁ => ?_
    refine (calleeType_step F span c s₁).bind fun found s₂ h₂ => ?_
    refine (expect_step F t found span s₂).bind fun _ s₃ h₃ => ?_
    refine h₁.next id (h₂.next And.right (h₃.imp (fun h => ?_) (fun h _ => ?_) ?_))
    · exact ⟨h₂.frame.live (h₁.frame.live (hpre h.1.1 t rfl)), h.2⟩
    · exact h₃.frame.live (h₂.frame.live (h₁.frame.live (hpre h.1.1 t rfl)))
    · intro _ _ σ heq hT hc
      have ht : T σ (t.subst σ.type) := heq ▸ hT _ _ hc
      exact ⟨ht, fun u hu => Option.some.inj hu ▸ ht⟩

/-! Applications -/

theorem shallow_here {t : Ty} {pre : Prop} (ht : pre → t.Live F s.store.size) :
    Step F [] s s pre ((s.store.shallow t).Live F s.store.size) fun σ =>
      (s.store.shallow t).subst σ.type = t.subst σ.type :=
  .here fun hpre hs => ⟨TypeStore.live_shallow hs.closed (ht hpre), fun _ hσ =>
    TypeStore.subst_shallow hσ.satisfies t⟩

variable (F) in
theorem notAFunction_step (span : Span) (s : CheckerState) :
    (notAFunction span).Yields s fun _ s' => Step F [] s s' True False fun _ => True :=
  (report_step F _ span s rfl).bind fun _ _ h₁ => h₁

variable (F) in
theorem applyType_step (function arg : Ty) (functionSpan argSpan : Span) (s : CheckerState) :
    (applyType function arg functionSpan argSpan).Yields s fun t s' =>
      Step F [] s s' (function.Live F s.store.size ∧ arg.Live F s.store.size)
        (t.Live F s'.store.size) fun σ =>
          function.subst σ.type = .function (arg.subst σ.type) (t.subst σ.type) := by
  have hshallow : Step F [] s s (function.Live F s.store.size ∧ arg.Live F s.store.size) _ _ :=
    shallow_here (t := function) And.left
  simp only [applyType, yields_bind, yields_shallow]
  generalize s.store.shallow function = head at hshallow
  split
  case h_1 param ret =>
    refine (expect_step F param arg argSpan s).bind fun _ s₁ h₁ => ?_
    refine hshallow.next id (h₁.imp (fun h => ?_) (fun h _ => ?_) fun _ _ σ heq hf => ?_)
    · exact ⟨(Ty.live_function.mp h.2).1, h.1.2⟩
    · exact h₁.frame.live (Ty.live_function.mp h.2).2
    · rw [← hf, Ty.subst, heq]
      rfl
  case h_2 => exact hshallow.next id (.done (fun h => absurd h.2 Ty.not_live_error) fun h =>
      absurd h.2 Ty.not_live_error)
  case h_3 v =>
    refine (fresh_step F s).bind fun ret s₁ h₁ => ?_
    refine (expect_step F function (.function arg ret) functionSpan s₁).bind fun _ s₂ h₂ => ?_
    refine h₁.next (fun _ => trivial) (h₂.imp (fun h => ?_) (fun h _ => h₂.frame.live h.2) ?_)
    · exact ⟨h₁.frame.live h.1.1, Ty.live_function.mpr ⟨h₁.frame.live h.1.2, h.2⟩⟩
    · exact fun _ _ _ heq _ => heq
  case h_4 =>
    refine (notAFunction_step F functionSpan s).mono fun t s₁ h₁ => ?_
    exact h₁.imp (fun _ => trivial) (fun _ => False.elim) fun _ => False.elim

theorem apply_step {arg : Option Ty → Checker Ty} (harg : Infers F J T arg)
    (hJ : ∀ s s', s.Frame [] s' → J s → J s') (function : Ty) (functionSpan argSpan : Span)
    (expected : Option Ty) (s : CheckerState) :
    (apply function functionSpan arg argSpan expected).Yields s fun t s' =>
      Step F [] s s'
        (J s ∧ function.Live F s.store.size ∧ ∀ u ∈ expected, u.Live F s.store.size)
        (t.Live F s'.store.size) fun σ =>
          ∃ param, T σ param ∧ function.subst σ.type = .function param (t.subst σ.type) := by
  have hshallow : Step F [] s s
      (J s ∧ function.Live F s.store.size ∧ ∀ u ∈ expected, u.Live F s.store.size) _ _ :=
    shallow_here (t := function) fun h => h.2.1
  simp only [apply, yields_bind, yields_shallow]
  generalize s.store.shallow function = head at hshallow
  split
  case h_1 param ret =>
    -- what is expected of the result is no condition, it only helps to check the argument
    have hearly (s₁ : CheckerState) (h₁ : Step F [] s s₁
        (J s ∧ function.Live F s.store.size ∧ ∀ u ∈ expected, u.Live F s.store.size)
        (param.Live F s₁.store.size ∧ ret.Live F s₁.store.size) fun σ =>
          function.subst σ.type = .function (param.subst σ.type) (ret.subst σ.type)) :
        Yields (do let _ ← arg (some param); return ret) s₁ fun t s' =>
          Step F [] s s'
            (J s ∧ function.Live F s.store.size ∧ ∀ u ∈ expected, u.Live F s.store.size)
            (t.Live F s'.store.size) fun σ =>
              ∃ param, T σ param ∧ function.subst σ.type = .function param (t.subst σ.type) := by
      refine (harg (some param) s₁).bind fun _ s₂ h₂ => ?_
      refine h₁.next id (h₂.imp (fun h => ?_) (fun h _ => h₂.frame.live h.2.2) ?_)
      · exact ⟨hJ _ _ h₁.frame h.1.1, fun u hu => Option.some.inj hu ▸ h.2.1⟩
      · exact fun _ _ σ ht hf => ⟨param.subst σ.type, ht.2 param rfl, hf⟩
    have hstart := hshallow.imp id (fun _ h => Ty.live_function.mp h) fun _ _ _ h => h.symm
    split
    case h_1 expected =>
      simp only [yields_bind, yields_unifies]
      have htried := hstart.next id ((demand_step F .variable (s.store.unifyInside expected ret) s).imp
        (fun _ => trivial) (fun h _ => h.2) fun _ _ _ _ hf => hf)
      split
      case isTrue =>
        refine (unify_step F expected ret _).bind fun _ s₁ h₁ => hearly s₁ ?_
        refine htried.next id (h₁.imp (fun h => ?_) (fun h _ => ?_) fun _ _ _ _ hf => hf)
        · exact ⟨h.1.2.2 expected rfl, h.2.2⟩
        · exact ⟨h₁.frame.live h.2.1, h₁.frame.live h.2.2⟩
      case isFalse => exact hearly _ htried
    case h_2 => exact hearly s hstart
  case h_2 =>
    refine (harg none s).bind fun _ s₁ h₁ => ?_
    refine hshallow.next id (h₁.imp (fun h => ?_) (fun h => ?_) fun h => ?_) <;>
      exact absurd h.2 Ty.not_live_error
  case h_3 v =>
    refine (harg none s).bind fun t s₁ h₁ => ?_
    refine (applyType_step F function t functionSpan argSpan s₁).mono fun ret s₂ h₂ => ?_
    refine h₁.next (fun h => ⟨h.1, nofun⟩) (h₂.imp (fun h => ?_) (fun _ => id) ?_)
    · exact ⟨h₁.frame.live h.1.2.1, h.2⟩
    · exact fun _ _ σ hf ht => ⟨t.subst σ.type, ht.1, hf⟩
  case h_4 =>
    refine (harg none s).bind fun _ s₁ h₁ => ?_
    refine (notAFunction_step F functionSpan s₁).mono fun t s₂ h₂ => ?_
    refine h₁.next (fun h => ⟨h.1, nofun⟩) (h₂.imp (fun _ => trivial) (fun _ => False.elim) ?_)
    exact fun _ => False.elim

theorem eq_of_isAtom {t : Ty} {name : String} (h : t.isAtom name = true) : t = .atom name := by
  unfold Ty.isAtom at h
  split at h
  · rw [beq_iff_eq] at h
    rw [h, Ty.atom]
  · cases h

variable (F) in
theorem arithmetic_step (op : BinaryOp) (t : Ty) (span : Span) (s : CheckerState) :
    (arithmetic op t span).Yields s fun t' s' =>
      Step F [] s s' (t.Live F s.store.size) (t'.Live F s'.store.size) fun σ =>
        t'.subst σ.type = t.subst σ.type ∧ op.SupportsArithmetic (t.subst σ.type) := by
  have hshallow : Step F [] s s (t.Live F s.store.size) _ _ := shallow_here (t := t) id
  simp only [arithmetic, yields_bind, yields_shallow]
  generalize hhead : s.store.shallow t = head at hshallow
  split
  case h_1 v =>
    have hunify := unify_step F t .int s
    simp only [yields_bind, yields_unify, yields_pure] at hunify ⊢
    refine hunify.imp (fun ht => ⟨ht, Ty.live_int⟩) (fun _ _ => Ty.live_int) fun _ _ σ heq => ?_
    have hint : t.subst σ.type = .int := heq (TypeStore.unifies_atom hhead)
    rw [hint]
    exact ⟨rfl, .inl rfl⟩
  case h_2 => exact hshallow.next id (.done (fun h => absurd h.2 Ty.not_live_error) fun h =>
      absurd h.2 Ty.not_live_error)
  case h_3 =>
    split
    case isTrue hop =>
      have hsupports : op.SupportsArithmetic head := by
        simp only [Bool.or_eq_true, Bool.and_eq_true, beq_iff_eq] at hop
        rcases hop with (hint | hfloat) | ⟨hadd, hstring⟩
        · exact .inl (eq_of_isAtom hint)
        · exact .inr (.inl (eq_of_isAtom hfloat))
        · exact .inr (.inr ⟨hadd, eq_of_isAtom hstring⟩)
      have hclosed (σ : Solution) : head.subst σ.type = head := by
        rcases hsupports with rfl | rfl | ⟨-, rfl⟩ <;> rfl
      refine hshallow.next id (.done And.right fun _ σ heq => ⟨heq, ?_⟩)
      rw [← heq, hclosed]
      exact hsupports
    case isFalse =>
      simp only [yields_bind, yields_zonk]
      refine (report_step F (.unsupportedOperator (s.store.zonk head) op) span s rfl).mono
        fun _ s₁ h₁ => ?_
      exact h₁.imp (fun _ => trivial) (fun _ => False.elim) fun _ => False.elim

variable (F) in
theorem warnIgnored_step (t : Ty) (span : Span) (s : CheckerState) :
    (warnIgnored t span).Yields s fun _ s' =>
      Step F [] s s' (t.Live F s.store.size) True fun _ => True := by
  have hshallow : Step F [] s s (t.Live F s.store.size) _ _ := shallow_here (t := t) id
  simp only [warnIgnored, yields_bind, yields_shallow]
  generalize s.store.shallow t = head at hshallow
  split
  case h_1 v =>
    refine (unify_step F .unit (.var v) s).bind fun _ s₁ h₁ => ?_
    exact hshallow.next id (h₁.imp (fun h => ⟨Ty.live_unit, h.2⟩) (fun _ => id) fun _ _ _ _ _ =>
      trivial)
  case h_2 => exact .done (fun _ => trivial) fun _ _ => trivial
  case h_3 =>
    split
    · exact .done (fun _ => trivial) fun _ _ => trivial
    · exact (warn_step F (.ignoredResult (s.store.zonk head)) span s rfl).mono fun _ _ h =>
        h.imp (fun _ => trivial) (fun _ => id) fun _ _ _ => id

variable (F) in
theorem warnIfUnused_step (i : Nat) (s : CheckerState) :
    (warnIfUnused i).Yields s fun _ s' => Step F [] s s' True True fun _ => True := by
  simp only [warnIfUnused, yields_bind, yields_binderAt]
  have hread := demand_step F .binder (i < s.binders.size) s
  split
  · exact hread
  · split
    · exact hread
    · exact (warn_step F _ _ _ rfl).mono fun _ _ h =>
        hread.next id (h.imp (fun _ => trivial) (fun _ => id) fun _ _ _ _ => id)

variable (F) in
theorem warnUnused_step (bound : List Nat) (s : CheckerState) :
    (warnUnused bound).Yields s fun _ s' => Step F [] s s' True True fun _ => True := by
  have hall : (bound.forM warnIfUnused).Yields s fun _ s' => Step F [] s s' True True fun _ => True := by
    induction bound generalizing s with
    | nil => exact .done id fun _ _ => trivial
    | cons i bound ih =>
      simp only [List.forM_eq_forM, List.forM_cons] at ih ⊢
      refine (warnIfUnused_step F i s).bind fun _ s₁ h₁ => (ih s₁).mono fun _ s₂ h₂ => ?_
      exact h₁.next id (h₂.imp (fun _ => trivial) (fun _ => id) fun _ _ _ _ => id)
  simp only [warnUnused, yields_bind, yields_get]
  split
  · exact hall
  · exact .done id fun _ _ => trivial

end Checker
end ScriptAnalyzer

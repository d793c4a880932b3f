import Mathlib.Data.List.Find
import ScriptAnalyzer.Proofs.Typing.Constructs

/-!
The checker finds no type for an expression of the core language that the typing rules do not give it.
-/

namespace ScriptAnalyzer

open CheckerState
open TypeStore (Closed)

variable {F : Nat → Prop}

namespace Expr

mutual

/-- Whether the expression is built from the constructs that the typing rules speak of, and has no free
names but `names`. A recursive binding without parameters is allowed only if `recValues`. -/
def isCore (recValues : Bool) (names : List String) : Expr → Bool
  | literal _ _ => true
  | ident name => names.contains name.text
  | neg _ inner | paren _ inner => isCore recValues names inner
  | app _ first second | binary _ _ _ first second | sequential _ first second =>
    isCore recValues names first && isCore recValues names second
  | conditional _ condition thenBranch elseBranch =>
    isCore recValues names condition && isCore recValues names thenBranch &&
      match elseBranch with | some branch => isCore recValues names branch | none => true
  | lambda _ params body =>
    Pattern.areWhole params &&
      isCore recValues (((Pattern.boundNamesOfAll params).map (·.text)).reverse ++ names) body
  | letIn _ head value body =>
    -- the parser reports a function without a plain name
    head.isWhole && (if head.isFunction then head.pattern.isNamed else recValues || !head.isRec) &&
      isCore recValues (head.innerNames ++ names) value &&
      isCore recValues ((head.boundNames.map (·.text)).reverse ++ names) body
  | tuple _ items | list _ items => areCore recValues names items
  | typed _ inner written => written.isWhole && isCore recValues names inner
  | member _ _ _ _ | call _ _ _ _ | record _ _ | error _ => false

def areCore (recValues : Bool) (names : List String) : List Expr → Bool
  | [] => true
  | e :: es => isCore recValues names e && areCore recValues names es

end

end Expr

/-! What the names in scope mean -/

theorem Environment.lookup_of_mem {Γ : Environment} {name : String}
    (h : (Γ.map (·.1)).contains name = true) : ∃ scheme, Γ.lookup name = some scheme := by
  rw [← Option.isSome_iff_exists, List.lookup_isSome_iff]
  simpa using h

theorem Environment.lookup_under (σ : Solution) (Γ : Environment) (name : String) :
    (Γ.under σ).lookup name = (Γ.lookup name).map (·.under σ) := by
  induction Γ with
  | nil => rfl
  | cons entry Γ ih =>
    obtain ⟨name', scheme⟩ := entry
    rw [under_cons, List.lookup_cons, List.lookup_cons, ih]
    cases name == name' <;> rfl

/-- The names of `Γ` mean binders with these schemes in the scope. Their types are live, but for the
quantified variables, which are among `F`. -/
structure CheckerState.Knows (F : Nat → Prop) (Γ : Environment) (s : CheckerState) : Prop where
  scope : ∀ i ∈ s.scope.binders, i < s.binders.size
  bound : ∀ name scheme, Γ.lookup name = some scheme →
    ∃ i b, s.binder? name = some i ∧ s.binders[i]? = some b ∧ b.scheme = scheme ∧
      scheme.Live F s.store.size ∧ ∀ v ∈ scheme.vars, F v

namespace CheckerState

variable {s s' : CheckerState} {bound : List Nat} {Γ Γ' : Environment}

theorem find?_entries {p : Nat → Bool} {name : String}
    (hp : ∀ i, p i = s.binders[i]?.any (·.simpleName == name))
    (h : List.Forall₂
      (fun i entry => ∃ b, s.binders[i]? = some b ∧ (b.simpleName, b.scheme) = entry) bound Γ) :
    (Γ.lookup name = none ∧ bound.find? p = none) ∨
      ∃ i b, bound.find? p = some i ∧ s.binders[i]? = some b ∧ Γ.lookup name = some b.scheme := by
  induction h with
  | nil => exact .inl ⟨rfl, rfl⟩
  | @cons i entry bound Γ hentry _ ih =>
    obtain ⟨b, hb, rfl⟩ := hentry
    by_cases hname : b.simpleName = name
    · refine .inr ⟨i, b, ?_, hb, ?_⟩
      · rw [List.find?_cons_of_pos (by simp [hp, hb, hname])]
      · simp [hname]
    · have hfind : (i :: bound).find? p = bound.find? p :=
        List.find?_cons_of_neg (by simp [hp, hb, hname])
      have hlookup : ((b.simpleName, b.scheme) :: Γ).lookup name = Γ.lookup name := by
        have hne : (name == b.simpleName) = false := beq_eq_false_iff_ne.mpr fun h => hname h.symm
        rw [List.lookup_cons, hne]
      rw [hfind, hlookup]
      exact ih

theorem knows_scoping (F : Nat → Prop) : Scoping F fun Γ s => s.Knows F Γ := by
  intro Γ Γ' s s' bound hframe hmono hbinds hs
  have hsize := hframe.binders_size
  refine ⟨fun i hi => ?_, fun name scheme hlookup => ?_⟩
  · rw [hframe.scope, List.mem_append, List.mem_reverse] at hi
    rcases hi with hi | hi
    · exact (hframe.fresh i hi).2
    · exact Nat.lt_of_lt_of_le (hs.scope i hi) hsize
  have hfind : s'.binder? name =
      (bound.reverse.find? fun i => s'.binders[i]?.any (·.simpleName == name)).or (s.binder? name) := by
    rw [binder?, hframe.scope, List.find?_append]
    refine congrArg _ (List.find?_congr fun i hi => ?_)
    obtain ⟨b', hb', hname, -⟩ := hframe.binders i _ (Array.getElem?_eq_getElem (hs.scope i hi))
    rw [hb', Array.getElem?_eq_getElem (hs.scope i hi), Option.any_some, Option.any_some, hname]
  rw [List.lookup_append] at hlookup
  have hentries := List.forall₂_reverse_iff.mpr hbinds.entries
  rcases find?_entries (fun _ => rfl) hentries with ⟨hnone, hout⟩ | ⟨i, b, hi, hb, hscheme⟩
  · rw [hnone, Option.none_or] at hlookup
    obtain ⟨i, b, hi, hb, hscheme, hlive, hvars⟩ := hs.bound name scheme hlookup
    obtain ⟨b', hb', -, hscheme'⟩ := hframe.binders i b hb
    refine ⟨i, b', ?_, hb', hscheme'.trans hscheme, hlive.mono hframe.size, hvars⟩
    rw [hfind, hout, Option.none_or, hi]
  · rw [hscheme, Option.some_or] at hlookup
    obtain rfl := Option.some.inj hlookup
    obtain ⟨before, behind, heq, -⟩ := List.lookup_eq_some_iff.mp hscheme
    have hmem : (name, b.scheme) ∈ Γ' := List.mem_reverse.mp (by simp [heq])
    refine ⟨i, b, by rw [hfind, hi, Option.some_or], hb, rfl, hbinds.live _ hmem, ?_⟩
    rw [hmono _ hmem]
    nofun

end CheckerState

/-- In states in which annotations mean the types `N`, and the names `Γ` are known. -/
def Core (F : Nat → Prop) (N : Solution → TypeNames) (Γ : Environment) (s : CheckerState) : Prop :=
  (∀ σ, s.typeNames σ = N σ) ∧ s.Knows F Γ

variable {N : Solution → TypeNames} {Γ : Environment}

theorem core_scoping (F : Nat → Prop) (N : Solution → TypeNames) : Scoping F (Core F N) :=
  fun _ _ _ _ _ hframe hmono hbinds h =>
    ⟨fun σ => (hframe.typeNames σ).trans (h.1 σ), knows_scoping F hframe hmono hbinds h.2⟩

namespace Checker

theorem means_ident {name : Ident} {scheme : Scheme} (h : Γ.lookup name.text = some scheme) :
    Means F False (Core F N Γ) (fun σ => (scheme.under σ).HasInstance) (expr (.ident name)) := by
  refine Finds.settle name.span fun expected s => ⟨(nameCallee_step F name s).frame, fun hpre => ?_⟩
  obtain ⟨i, b, hi, hb, rfl, hlive, hvars⟩ := hpre.1.2.bound name.text scheme h
  have hrun : (nameCallee name).run s = (binderCallee i name.span).run s.readScope := by
    have hread : s.readScope.binder? name.text = some i := hi
    simp only [nameCallee, readScope, StateT.run_bind, StateT.run_modify, StateT.run_get, pure_bind,
      meaning?, hread]
  have hbinder := binderCallee_step F i name.span s.readScope
  rw [Yields, ← hrun] at hbinder
  have hknown := (readScope_step F s).next (fun _ : True => trivial)
    (hbinder.imp (fun _ => ⟨b, hb, hlive⟩) (fun _ => id) fun _ _ σ h _ => h b hb hvars False)
  exact hknown.calm trivial

/-- A name that is known is no format function. -/
theorem formatApplication_known {R : Solution → Ty → Prop} {function arg : Expr}
    (hcore : function.isCore false (Γ.map (·.1)) = true) (s : CheckerState) :
    (formatApplication? function arg).Yields s fun t? s' =>
      Step F [] s s' (Core F N Γ s) (∀ t ∈ t?, t.Live F s'.store.size) fun σ =>
        ∀ t ∈ t?, R σ (t.subst σ.type) := by
  refine ⟨(formatApplication_step F function arg s).frame, fun hpre => ?_⟩
  have hnone {s' : CheckerState} (h : Step F [] s s' True True fun _ => True) : Step F [] s s' True
      (∀ t ∈ (none : Option Ty), t.Live F s'.store.size) fun σ => ∀ t ∈ (none : Option Ty), R σ (t.subst σ.type) :=
    h.imp id (fun _ _ => nofun) fun _ _ _ _ => nofun
  suffices hstep : (formatApplication? function arg).Yields s fun t? s' => Step F [] s s' True
      (∀ t ∈ t?, t.Live F s'.store.size) fun σ => ∀ t ∈ t?, R σ (t.subst σ.type) from hstep.calm trivial
  unfold formatApplication?
  split
  case h_2 => exact hnone (.done id fun _ _ => trivial)
  case h_1 name span format =>
    obtain ⟨scheme, h⟩ := Environment.lookup_of_mem hcore
    obtain ⟨i, b, hi, -⟩ := hpre.2.bound name.text scheme h
    split
    · exact hnone (.done id fun _ _ => trivial)
    · have hread : s.readScope.meaning? name.text = some (.binder i) := by
        have hi' : s.readScope.binder? name.text = some i := hi
        simp only [meaning?, hi']
      simp only [yields_bind, yields_readScope, yields_get, hread]
      exact hnone (readScope_step F s)

/-! Expressions -/

end Checker

theorem HasBinding.letIn {names : TypeNames} {Γ Γ' : Environment} {head : LetHead} {span : Span}
    {value body : Expr} {t : Ty} (h : HasBinding names (HasType names · value) Γ head Γ')
    (hbody : HasType names (Γ'.reverse ++ Γ) body t) :
    HasType names Γ (.letIn span head value body) t := by
  cases h with
  | value hhead hwritten hpattern hvalue => exact .letValue hhead hwritten hpattern hvalue hbody
  | function hhead hname hwritten hparams hvalue =>
    exact .letFunction hhead hname hwritten hparams hvalue hbody

theorem haveTypes_iff {names : TypeNames} {es : List Expr} {ts : List Ty} :
    HaveTypes names Γ es ts ↔ List.Forall₂ (HasType names Γ) es ts := by
  constructor
  · intro h
    induction es generalizing ts with
    | nil =>
      cases h
      exact .nil
    | cons e es ih =>
      cases h with
      | cons h hrest => exact .cons h (ih hrest)
  · intro h
    induction h with
    | nil => exact .nil
    | cons h _ ih => exact .cons h ih

namespace Checker

theorem means_binary {J : CheckerState → Prop} {names : Solution → TypeNames} {span opSpan : Span}
    {op : BinaryOp} {lhs rhs : Expr} (hJ : ∀ s s', s.Frame [] s' → J s → J s')
    (hlhs : Means F False J (fun σ => HasType (names σ) (Γ.under σ) lhs) (expr lhs))
    (hrhs : Means F False J (fun σ => HasType (names σ) (Γ.under σ) rhs) (expr rhs)) :
    Means F False J (fun σ => HasType (names σ) (Γ.under σ) (.binary span op opSpan lhs rhs))
      (expr (.binary span op opSpan lhs rhs)) := by
  rcases op.kinds with rfl | hop | rfl | hop | hop
  · exact means_pipe hJ hlhs hrhs False.elim fun σ param ret => .pipe
  · exact means_logical hJ hop hlhs hrhs fun σ => .logical hop
  · exact means_concat hJ hlhs hrhs fun σ => .concat
  · exact means_comparison hJ hop hlhs hrhs fun σ t => .comparison hop
  · exact means_arithmetic hJ hop hlhs hrhs fun σ t => .arithmetic hop

mutual

theorem expr_means (F : Nat → Prop) (N : Solution → TypeNames) (e : Expr) (Γ : Environment)
    (hcore : e.isCore false (Γ.map (·.1)) = true) :
    Means F False (Core F N Γ) (fun σ => HasType (N σ) (Γ.under σ) e) (expr e) := by
  have hJ : ∀ s s', s.Frame [] s' → Core F N Γ s → Core F N Γ s' :=
    fun _ _ hframe => (core_scoping F N).keep hframe
  match e, hcore with
  | .literal span l, _ => exact means_literal fun σ => .literal
  | .ident name, hcore =>
    obtain ⟨scheme, h⟩ := Environment.lookup_of_mem hcore
    have hname := means_ident (F := F) (N := N) h
    exact hname.imp fun σ t ht => .ident (by rw [Environment.lookup_under, h, Option.map_some]) ht
  | .neg span inner, hcore =>
    exact means_neg (expr_means F N inner Γ hcore) fun σ t => .neg
  | .paren span inner, hcore =>
    exact (expr_means F N inner Γ hcore).imp fun σ t => .paren
  | .app span function arg, hcore =>
    obtain ⟨hfunction, harg⟩ := Bool.and_eq_true_iff.mp hcore
    exact means_app hJ (expr_means F N function Γ hfunction) (expr_means F N arg Γ harg) False.elim
      (formatApplication_known hfunction) fun σ param ret => .app
  | .binary span op opSpan lhs rhs, hcore =>
    obtain ⟨hlhs, hrhs⟩ := Bool.and_eq_true_iff.mp hcore
    exact means_binary hJ (expr_means F N lhs Γ hlhs) (expr_means F N rhs Γ hrhs)
  | .sequential span first second, hcore =>
    obtain ⟨hfirst, hsecond⟩ := Bool.and_eq_true_iff.mp hcore
    exact means_sequential hJ (expr_means F N first Γ hfirst) (expr_means F N second Γ hsecond)
      fun σ t ret => .sequential
  | .conditional span condition thenBranch (some elseBranch), hcore =>
    obtain ⟨hparts, helse⟩ := Bool.and_eq_true_iff.mp hcore
    obtain ⟨hcondition, hthen⟩ := Bool.and_eq_true_iff.mp hparts
    exact means_conditional hJ (expr_means F N condition Γ hcondition)
      (expr_means F N thenBranch Γ hthen) (expr_means F N elseBranch Γ helse) fun σ t => .conditional
  | .conditional span condition thenBranch none, hcore =>
    obtain ⟨hparts, -⟩ := Bool.and_eq_true_iff.mp hcore
    obtain ⟨hcondition, hthen⟩ := Bool.and_eq_true_iff.mp hparts
    exact means_action hJ (expr_means F N condition Γ hcondition) (expr_means F N thenBranch Γ hthen)
      fun σ => .action
  | .lambda span params body, hcore =>
    obtain ⟨hparams, hbody⟩ := Bool.and_eq_true_iff.mp hcore
    refine means_lambda (core_scoping F N) hparams Γ (V := fun σ Γ t => HasType (N σ) Γ body t)
      (fun Γ' hΓ' => expr_means F N body (Γ' ++ Γ) ?_) fun s σ Γ' ts ret hs hpatterns => ?_
    · rw [List.map_append, hΓ']
      exact hbody
    · exact .lambda (hs.1 σ ▸ hpatterns)
  | .letIn span head value body, hcore =>
    obtain ⟨hparts, hbody⟩ := Bool.and_eq_true_iff.mp hcore
    obtain ⟨hparts, hvalue⟩ := Bool.and_eq_true_iff.mp hparts
    obtain ⟨hwhole, hhead⟩ := Bool.and_eq_true_iff.mp hparts
    refine means_letIn (core_scoping F N) hwhole Γ (V := fun σ Γ t => HasType (N σ) Γ value t)
      (W := fun σ Γ t => HasType (N σ) Γ body t) (fun Γ' hΓ' => expr_means F N value (Γ' ++ Γ) ?_)
      (fun Γ' hΓ' => expr_means F N body (Γ' ++ Γ) ?_) fun s σ Γ' t hs hbinding => ?_
    · rw [List.map_append, hΓ']
      exact hvalue
    · rw [List.map_append, hΓ']
      exact hbody
    · exact HasBinding.letIn (hs.1 σ ▸ hbinding hhead)
  | .tuple span items, hcore =>
    exact means_tuple (exprs_means F N items Γ hcore) fun σ ts h => .tuple (haveTypes_iff.mpr h)
  | .list span items, hcore =>
    refine means_list hJ (exprs_means F N items Γ hcore) fun σ t h => .list (haveTypes_iff.mpr ?_)
    exact List.forall₂_map_right_iff.mpr (List.forall₂_same.mpr h)
  | .typed span inner written, hcore =>
    obtain ⟨hwritten, hinner⟩ := Bool.and_eq_true_iff.mp hcore
    exact means_typed hJ hwritten (expr_means F N inner Γ hinner) fun s σ t hs ht hdenotes =>
      .typed ht (hs.1 σ ▸ hdenotes)

theorem exprs_means (F : Nat → Prop) (N : Solution → TypeNames) (es : List Expr) (Γ : Environment)
    (hcore : Expr.areCore false (Γ.map (·.1)) es = true) :
    MeansAll F (Core F N Γ) (fun e σ => HasType (N σ) (Γ.under σ) e) es := by
  have hJ : ∀ s s', s.Frame [] s' → Core F N Γ s → Core F N Γ s' :=
    fun _ _ hframe => (core_scoping F N).keep hframe
  match es, hcore with
  | [], _ => exact meansAll_nil
  | e :: es, hcore =>
    obtain ⟨he, hes⟩ := Bool.and_eq_true_iff.mp hcore
    exact meansAll_cons hJ (expr_means F N e Γ he) (exprs_means F N es Γ hes)

end

end Checker

/-! The final substitution -/

namespace CheckerState

/-- What the types and the written type variables stand for in the end. -/
def solution (s : CheckerState) : Solution where
  type := s.store.image
  named name := (s.typeVars.lookup name).elim .unit s.store.zonk

theorem Sane.solved {s : CheckerState} (hs : s.Sane F) : s.Solved F s.solution := by
  refine ⟨TypeStore.satisfies_image hs.closed.acyclic, fun name t ht => ?_, fun v hv w hw => ?_⟩
  · simp [solution, ht, TypeStore.zonk_eq_subst]
  · by_cases hlt : v < s.store.size
    · have hlive := TypeStore.live_zonk hs.closed (Ty.live_var.mpr ⟨hlt, hv⟩)
      exact (hlive.vars w hw).2
    · have hfree : s.store.binding? v = none := by
        cases hb : s.store.binding? v with
        | none => rfl
        | some t => exact absurd (TypeStore.lt_size_of_bound hb) hlt
      have himage : s.solution.type v = .var v := TypeStore.image_free hfree
      rw [himage] at hw
      rwa [List.mem_singleton.mp hw]

end CheckerState

def Environment.Quantifies (Γ : Environment) (v : Nat) : Prop := ∃ entry ∈ Γ, v ∈ entry.2.vars

namespace Checker

/-- Checking a core expression without a new error gives it a type by the rules, and gives it the type
that was expected. The names in scope, `Γ`, have schemes whose quantified variables occur nowhere else. -/
theorem expr_sound (Γ : Environment) (e : Expr) (expected : Option Ty) (s : CheckerState)
    (hs : s.Sane Γ.Quantifies) (hΓ : s.Knows Γ.Quantifies Γ)
    (hcore : e.isCore false (Γ.map (·.1)) = true)
    (hexpected : ∀ t ∈ expected, t.Live Γ.Quantifies s.store.size) :
    (valueOf e (expr e expected)).Yields s fun t s' => s'.alarms = s.alarms →
      HasType (s.typeNames s'.solution) (Γ.under s'.solution) e (s'.store.zonk t) ∧
        ∀ u ∈ expected,
          HasType (s.typeNames s'.solution) (Γ.under s'.solution) e (s'.store.zonk u) := by
  have hmeans := expr_means Γ.Quantifies s.typeNames e Γ hcore
  refine (hmeans.infers e expected s).mono fun t s' h hquiet => ?_
  obtain ⟨hs', -, -, hΦ⟩ := h.calm ⟨⟨fun _ => rfl, hΓ⟩, hexpected⟩ (Nat.le_of_eq hquiet) hs
  obtain ⟨ht, hu⟩ := hΦ s'.solution hs'.solved
  refine ⟨?_, fun u hmem => ?_⟩
  · rw [TypeStore.zonk_eq_subst]
    exact ht
  · rw [TypeStore.zonk_eq_subst]
    exact hu u hmem

end Checker

/-- A state in which one name is bound, and `n` type variables are free. -/
def CheckerState.withName (name : String) (scheme : Scheme) (n : Nat) : CheckerState where
  entities := { libraries := [] }
  store := TypeStore.extend {} n
  binders := #[{ name, simpleName := name, scheme, params := [], span := .empty 0 }]
  scope := { binders := [0] }

theorem CheckerState.sane_withName (name : String) (scheme : Scheme) {n : Nat} (hF : ∀ v, F v → v < n) :
    (withName name scheme n).Sane F := by
  have hsize : (withName name scheme n).store.size = n := (TypeStore.size_extend _ n).trans (Nat.zero_add n)
  have hempty : Closed (Ty.Live F (TypeStore.size {})) {} :=
    ⟨⟨fun _ => 0, fun v t hv => by simp [TypeStore.binding?] at hv⟩,
      fun v t hv => by simp [TypeStore.binding?] at hv⟩
  have hclosed := TypeStore.closed_extend hempty n
  rw [show TypeStore.size {} = 0 from rfl, Nat.zero_add] at hclosed
  refine ⟨fun v hv => (hF v hv).trans_eq hsize.symm, ?_, by rintro _ ⟨⟩, by rintro _ ⟨⟩, by rintro _ ⟨⟩⟩
  rw [hsize]
  exact hclosed

theorem CheckerState.knows_withName {name : String} {scheme : Scheme} {n : Nat} (hlive : scheme.Live F n)
    (hvars : ∀ v ∈ scheme.vars, F v) : (withName name scheme n).Knows F [(name, scheme)] := by
  have hsize : (withName name scheme n).store.size = n := (TypeStore.size_extend _ n).trans (Nat.zero_add n)
  refine ⟨fun i hi => by simpa [withName] using hi, fun name' scheme' h => ?_⟩
  by_cases hname : name' = name
  · subst hname
    have heq : scheme = scheme' := by simpa using h
    subst heq
    exact ⟨0, _, by simp [binder?, withName], rfl, rfl,
      hlive.mono (Nat.le_of_eq hsize.symm), hvars⟩
  · rw [List.lookup_cons, beq_eq_false_iff_ne.mpr hname] at h
    cases h

namespace Checker

/-- The type of the identity function. -/
def identityScheme : Scheme := ⟨[0], .function (.var 0) (.var 0)⟩

/-- Reads `id 1`. -/
def identityCall : Expr :=
  .app ⟨0, 4⟩ (.ident ⟨"id", ⟨0, 2⟩⟩) (.literal ⟨3, 4⟩ (.int 1))

theorem identityCall_sound :
    ∃ σ, HasType ((withName "id" identityScheme 1).typeNames σ) [("id", identityScheme)] identityCall
      .int := by
  have hF (v : Nat) : Environment.Quantifies [("id", identityScheme)] v ↔ v = 0 := by
    simp [Environment.Quantifies, identityScheme]
  have hlive : identityScheme.Live (Environment.Quantifies [("id", identityScheme)]) 1 :=
    ⟨by decide, fun v hv => .inl (by simpa [identityScheme, Ty.vars] using hv)⟩
  have hsound := expr_sound [("id", identityScheme)] identityCall none (withName "id" identityScheme 1)
    (sane_withName _ _ fun v hv => by rw [(hF v).mp hv]; exact Nat.one_pos)
    (knows_withName hlive fun v hv => (hF v).mpr (by simpa [identityScheme] using hv)) (by decide) (by simp)
  exact ⟨_, (hsound (by decide +kernel)).1⟩

/-- Reads `let rec f = fun y -> f 1 in f "s"`. -/
def recursiveValue : Expr :=
  .letIn ⟨0, 33⟩ ⟨true, .named ⟨8, 9⟩ ⟨"f", ⟨8, 9⟩⟩, [], none, ⟨0, 24⟩⟩
    (.lambda ⟨12, 24⟩ [.named ⟨16, 17⟩ ⟨"y", ⟨16, 17⟩⟩]
      (.app ⟨21, 24⟩ (.ident ⟨"f", ⟨21, 22⟩⟩) (.literal ⟨23, 24⟩ (.int 1))))
    (.app ⟨28, 33⟩ (.ident ⟨"f", ⟨28, 29⟩⟩) (.literal ⟨30, 33⟩ (.string "s")))

/-- What is applied to a literal takes values of its type. -/
theorem HasType.applied {names : TypeNames} {Γ : Environment} {name : Ident} {f t : Ty}
    {span argSpan : Span} {l : Literal} (hf : Γ.lookup name.text = some (.mono f))
    (h : HasType names Γ (.app span (.ident name) (.literal argSpan l)) t) :
    ∃ ret, f = .function l.type ret := by
  cases h with
  | app hfunction harg =>
    cases harg
    cases hfunction with
    | ident hlookup hinstance =>
      obtain rfl := Option.some.inj (hf.symm.trans hlookup)
      obtain ⟨g, hg, heq⟩ := hinstance
      rw [Scheme.mono, show g = .var from funext fun v => hg v nofun, Ty.subst_var] at heq
      exact ⟨_, heq.symm⟩

theorem not_hasType_recursiveValue {names : TypeNames} {Γ : Environment} {t : Ty} :
    ¬HasType names Γ recursiveValue t := by
  intro h
  cases h with
  | letFunction hhead => exact hhead rfl
  | letValue _ _ hpattern hvalue hbody =>
    cases hpattern
    obtain ⟨ret, hstring⟩ := HasType.applied rfl hbody
    cases hvalue with
    | lambda hparams hinner =>
      cases hparams with
      | cons hp hnone =>
        cases hnone
        cases hp
        obtain ⟨ret', hint⟩ := HasType.applied rfl hinner
        have heq := hstring.symm.trans hint
        simp [Literal.type, Ty.string, Ty.int, Ty.atom] at heq

/-- A recursive binding without parameters is checked as if it were not recursive. -/
theorem recursiveValue_accepted :
    let Γ : Environment := [("f", .mono (.function .int .int))]
    let s := withName "f" (.mono (.function .int .int)) 0
    s.Sane Γ.Quantifies ∧ s.Knows Γ.Quantifies Γ ∧
      recursiveValue.isCore true (Γ.map (·.1)) = true ∧
      ¬(valueOf recursiveValue (expr recursiveValue none)).Yields s fun t s' =>
        s'.alarms = s.alarms →
          HasType (s.typeNames s'.solution) (Γ.under s'.solution) recursiveValue (s'.store.zonk t) := by
  have hF (v : Nat) : ¬Environment.Quantifies [("f", .mono (.function .int .int))] v := by
    simp [Environment.Quantifies, Scheme.mono]
  refine ⟨sane_withName _ _ fun v hv => absurd hv (hF v), knows_withName ?_ nofun, by decide, fun h => ?_⟩
  · exact Scheme.live_mono (by simp)
  · exact not_hasType_recursiveValue (h (by decide +kernel))

end Checker

end ScriptAnalyzer

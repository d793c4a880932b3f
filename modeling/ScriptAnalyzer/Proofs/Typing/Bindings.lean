import ScriptAnalyzer.Proofs.Typing.Inference

namespace ScriptAnalyzer

open CheckerState

/-- The names that a binding introduces. -/
def LetHead.boundNames (head : LetHead) : List Ident :=
  if head.isFunction then head.name?.toList else head.pattern.boundNames

/-- The names that the right-hand side of a binding sees and the rest does not, innermost first. -/
def LetHead.innerNames (head : LetHead) : List String :=
  if head.isFunction then
    ((Pattern.boundNamesOfAll head.params).map (·.text)).reverse ++
      if head.isRec then head.name?.toList.map (·.text) else []
  else []

/-- The names of `Γ'` are what a binding in `Γ` introduces, if its right-hand side has the types of
`value`. -/
inductive HasBinding (names : TypeNames) (value : Environment → Ty → Prop) (Γ : Environment)
    (head : LetHead) : Environment → Prop where
  | value {t : Ty} {Γ' : Environment} (hhead : head.params = [])
      (hwritten : ∀ written ∈ head.returnType, Denotes names written t)
      (hpattern : HasPattern names head.pattern t Γ')
      (hvalue : value (if head.isRec then Γ'.reverse ++ Γ else Γ) t) :
      HasBinding names value Γ head Γ'
  | function {span : Span} {name : Ident} {ts : List Ty} {result : Ty} {Γ' : Environment}
      (hhead : head.params ≠ []) (hname : head.pattern = .named span name)
      (hwritten : ∀ written ∈ head.returnType, Denotes names written result)
      (hparams : HasPatterns names head.params ts Γ')
      (hvalue : value
        (Γ'.reverse ++ if head.isRec then (name.text, .mono (.curried ts result)) :: Γ else Γ)
        result) :
      HasBinding names value Γ head [(name.text, .mono (.curried ts result))]

namespace Checker

variable {F : Nat → Prop} {head : LetHead} {body : Expr} {value : Option Ty → Checker Ty} {stop : Nat}
variable {ofModule : Bool} {s s' : CheckerState}

/-! The parts of `checkBinding` -/

def ownBinder (head : LetHead) (own : Ty) (stop : Nat) (ofModule : Bool) : Checker (Option Nat) :=
  match head.isRec, head.name? with
  | true, some name =>
    some <$> bind name (.mono own) (head.params.map paramName) ⟨head.span.start, stop⟩ ofModule
  | _, _ => pure none

def resultType (head : LetHead) : Checker Ty :=
  match head.returnType with
  | some written => annotation written
  | none => fresh

def functionParts (head : LetHead) (body : Expr) (value : Option Ty → Checker Ty) :
    Checker (List Ty × Ty) := do
  let (params, _) ← bindParams body.span head.params none
  let ret ← resultType head
  let _ ← value (some ret)
  return (params, ret)

def schemeOf (ofModule : Bool) (t : Ty) : Checker Scheme := do
  if ofModule then return (← get).store.generalize t else return .mono t

/-- The scheme of a function, and its binder if it has been bound in front of its parameters. -/
def functionScheme (head : LetHead) (body : Expr) (value : Option Ty → Checker Ty) (stop : Nat)
    (ofModule : Bool) : Checker (Option Nat × Scheme) := do
  let own ← fresh
  let recursive ← ownBinder head own stop ofModule
  let (params, ret) ← withScope (functionParts head body value)
  expect (.curried params ret) own ((head.name?.map (·.span)).getD head.span)
  let scheme ← schemeOf ofModule (.curried params ret)
  return (recursive, scheme)

def rebind (index : Nat) (scheme : Scheme) : Checker Unit := modify fun s =>
  { s.demand .binder (index < s.binders.size) with
    binders := s.binders.modify index fun b => { b with scheme } }

def bindFunction (head : LetHead) (scheme : Scheme) (recursive : Option Nat) (stop : Nat)
    (ofModule : Bool) : Checker (List Nat) := do
  match recursive, head.name? with
  | some index, _ =>
    rebind index scheme
    return [index]
  | none, some name =>
    return [← bind name scheme (head.params.map paramName) ⟨head.span.stop, stop⟩ ofModule]
  | none, none => return []

def valueType (head : LetHead) (value : Option Ty → Checker Ty) : Checker Ty :=
  match head.returnType with
  | some written => do
    let t ← annotation written
    let _ ← value (some t)
    return t
  | none => value none

def bindValue (head : LetHead) (body : Expr) (t : Ty) (stop : Nat) (ofModule : Bool) :
    Checker (List Nat) :=
  match head.pattern with
  | .named _ name => do
    let scheme ← schemeOf (ofModule && body.isLambda) t
    return [← bind name scheme [] ⟨head.span.stop, stop⟩ ofModule]
  | pattern => bindPattern ⟨head.span.stop, stop⟩ ofModule pattern t

theorem checkBinding_function (h : head.isFunction = true) :
    checkBinding head body value stop ofModule = (do
      let (recursive, scheme) ← functionScheme head body value stop ofModule
      bindFunction head scheme recursive stop ofModule) := by
  obtain ⟨isRec, pattern, params, returnType, span⟩ := head
  unfold checkBinding
  rw [if_pos h]
  cases isRec <;> cases hname : pattern.name? <;> cases returnType <;> cases ofModule <;>
    simp [functionScheme, ownBinder, functionParts, resultType, LetHead.name?, hname, bindFunction,
      rebind, schemeOf]

theorem checkBinding_value (h : head.isFunction = false) :
    checkBinding head body value stop ofModule = (do
      let t ← valueType head value
      bindValue head body t stop ofModule) := by
  obtain ⟨isRec, pattern, params, returnType, span⟩ := head
  unfold checkBinding
  rw [if_neg (by simp [h])]
  cases returnType <;> cases pattern <;> cases hscheme : ofModule && body.isLambda <;>
    simp [valueType, bindValue, schemeOf, hscheme]

/-! What the parts do -/

variable (F) in
theorem ownBinder_step (head : LetHead) (own : Ty) (stop : Nat) (ofModule : Bool)
    (s : CheckerState) :
    (ownBinder head own stop ofModule).Yields s fun r s' =>
      ∃ Γ : Environment, Step F r.toList s s' (own.Live F s.store.size) (s'.Binds F r.toList Γ) (fun _ => True) ∧
        ((∃ i name, r = some i ∧ head.isRec = true ∧ head.name? = some name ∧
            Γ = [(name.text, .mono own)]) ∨
          r = none ∧ Γ = [] ∧ (head.isRec = true → head.name? = none)) := by
  unfold ownBinder
  split
  case h_1 name hrec hname =>
    rw [yields_map]
    refine (bind_step F name (.mono own) (head.params.map paramName) ⟨head.span.start, stop⟩ ofModule
      s).mono fun i s₁ h₁ => ?_
    exact ⟨[(name.text, .mono own)], h₁.imp Scheme.live_mono (fun _ => id) (fun _ _ _ => id),
      .inl ⟨i, name, rfl, hrec, hname, rfl⟩⟩
  case h_2 hnone =>
    refine ⟨[], .done (fun _ => .nil F s) fun _ _ => trivial, .inr ⟨rfl, rfl, fun hrec => ?_⟩⟩
    cases hname : head.name? with
    | none => rfl
    | some name => exact absurd hname (hnone name hrec)

variable (F) in
theorem resultType_step (head : LetHead) (s : CheckerState) :
    (resultType head).Yields s fun t s' =>
      Step F [] s s' (head.returnType.all (·.isWhole) = true) (t.Live F s'.store.size) fun σ =>
        ∀ written ∈ head.returnType, Denotes (s.typeNames σ) written (t.subst σ.type) := by
  unfold resultType
  split
  case h_1 written heq =>
    refine (annotation_step F written s).mono fun t s₁ h₁ => ?_
    refine h₁.imp (fun h => ?_) (fun _ => id) fun _ _ σ ht w hw => ?_
    · simpa [heq] using h
    · obtain rfl : written = w := Option.some.inj (heq ▸ hw)
      exact ht
  case h_2 heq =>
    exact (fresh_step F s).mono fun t s₁ h₁ =>
      h₁.imp (fun _ => trivial) (fun _ => id) fun _ _ _ _ w hw => by simp [heq] at hw

end Checker

/-- In the states of `J Γ` the names `Γ` are in scope. -/
def Scoping (F : Nat → Prop) (J : Environment → CheckerState → Prop) : Prop :=
  ∀ ⦃Γ Γ' : Environment⦄ ⦃s s' : CheckerState⦄ ⦃bound : List Nat⦄, s.Frame bound s' → Γ'.IsMono →
    s'.Binds F bound Γ' → J Γ s → J (Γ'.reverse ++ Γ) s'

theorem Scoping.keep {F : Nat → Prop} {J : Environment → CheckerState → Prop} {Γ : Environment}
    {s s' : CheckerState} (hJ : Scoping F J) (hframe : s.Frame [] s') (h : J Γ s) : J Γ s' :=
  have hmono : Environment.IsMono [] := (by rintro _ ⟨⟩)
  hJ hframe hmono (.nil F s') h

namespace Checker

variable {F : Nat → Prop} {head : LetHead} {body : Expr} {value : Option Ty → Checker Ty} {stop : Nat}
variable {ofModule : Bool} {s s' : CheckerState} {Γ : Environment}
variable {J : Environment → CheckerState → Prop} {V : Solution → Environment → Ty → Prop}

/-- The right-hand side can be checked in environments that add the names `inner` to `Γ`. -/
def InfersValue (F : Nat → Prop) (J : Environment → CheckerState → Prop)
    (V : Solution → Environment → Ty → Prop) (value : Option Ty → Checker Ty) (inner : List String)
    (Γ : Environment) : Prop :=
  ∀ Γ' : Environment, Γ'.map (·.1) = inner →
    Infers F (J (Γ' ++ Γ)) (fun σ => V σ (Environment.under σ (Γ' ++ Γ))) value

theorem functionParts_step (hJ : Scoping F J) (head : LetHead) (body : Expr) (Γ : Environment)
    (hvalue : InfersValue F J V value
      ((Pattern.boundNamesOfAll head.params).map (·.text)).reverse Γ) (s : CheckerState) :
    (functionParts head body value).Yields s fun r s' => ∃ bound,
      Step F bound s s' (J Γ s ∧ head.isWhole = true)
        ((∀ t ∈ r.1, t.Live F s'.store.size) ∧ r.2.Live F s'.store.size) fun σ =>
          (∀ written ∈ head.returnType, Denotes (s.typeNames σ) written (r.2.subst σ.type)) ∧
          ∃ Γ' : Environment, HasPatterns (s.typeNames σ) head.params (r.1.map (Ty.subst σ.type)) Γ' ∧
            V σ (Γ'.reverse ++ Γ.under σ) (r.2.subst σ.type) := by
  have hwhole : head.isWhole = true →
      Pattern.areWhole head.params = true ∧ head.returnType.all (·.isWhole) = true := by
    simp only [LetHead.isWhole, Bool.and_eq_true]
    exact fun h => ⟨h.1.2, h.2⟩
  refine (bindParams_step F body.span head.params none s).bind fun r s₁ h₁ => ?_
  obtain ⟨bound, Γ', hmono, hnames, h₁⟩ := h₁
  refine (resultType_step F head s₁).bind fun ret s₂ h₂ => ?_
  refine (hvalue Γ'.reverse (by simp [hnames]) (some ret) s₂).bind fun _ s₃ h₃ =>
    ⟨bound ++ ([] ++ []), ?_⟩
  refine h₁.next (fun h => ⟨(hwhole h.2).1, nofun⟩) (h₂.next (fun h => (hwhole h.1.2).2)
    (h₃.imp (fun h => ?_) (fun h _ => ⟨?_, h₃.frame.live h.2⟩) ?_))
  · refine ⟨hJ.keep h₂.frame (hJ h₁.frame hmono h.1.2.2.2 h.1.1.1), fun u hu => ?_⟩
    exact Option.some.inj hu ▸ h.2
  · exact fun t ht => h₃.frame.live (h₂.frame.live (h.1.2.1 t ht))
  · intro _ _ σ hV hret hparams
    refine ⟨fun written hw => h₁.frame.typeNames σ ▸ hret written hw, Γ'.under σ, hparams, ?_⟩
    have hret : V σ (Environment.under σ (Γ'.reverse ++ Γ)) (ret.subst σ.type) := hV.2 ret rfl
    rw [Environment.under_append, Environment.under_reverse] at hret
    exact hret

theorem rebind_step {i : Nat} {name : String} {old scheme : Scheme} {s₁ : CheckerState} {pre : Prop}
    {Φ : Solution → Prop}
    (h : Step F [i] s s₁ pre (s₁.Binds F [i] [(name, old)] ∧ scheme.Live F s₁.store.size) Φ) :
    (rebind i scheme).Yields s₁ fun _ s' =>
      Step F [i] s s' pre (s'.Binds F [i] [(name, scheme)]) Φ := by
  simp only [rebind, yields_modify]
  have hi := (h.frame.fresh i (by simp)).1
  have hmodify (j : Nat) : (s₁.binders.modify i fun b => { b with scheme })[j]? =
      if i = j then s₁.binders[j]?.map fun b => { b with scheme } else s₁.binders[j]? := by
    rw [Array.getElem?_modify]
  refine ⟨⟨h.frame.alarms, h.frame.size, h.frame.scope, h.frame.entities, h.frame.abbreviations,
    h.frame.typeVars, fun j b hb => ?_, fun j hj => ?_⟩, fun hpre hquiet hs => ?_⟩
  · obtain ⟨b', hb', hsame⟩ := h.frame.binders j b hb
    have hne : i ≠ j := by
      rintro rfl
      rw [Array.getElem?_eq_none hi] at hb
      cases hb
    exact ⟨b', by rw [hmodify, if_neg hne, hb'], hsame⟩
  · simpa using h.frame.fresh j hj
  · obtain ⟨hs', hlater, ⟨hbinds, hlive⟩, hΦ⟩ := h.calm hpre hquiet hs
    refine ⟨⟨hs'.frozen, hs'.closed, hs'.typeVars, hs'.abbreviations, hs'.constructors⟩,
      ⟨hlater.store, fun j b hj hb => ?_, hlater.members, hlater.mentions, hlater.declarations⟩, ?_,
      fun σ hσ => hΦ σ ⟨hσ.satisfies, hσ.named, hσ.apart⟩⟩
    · rw [hmodify] at hb
      split at hb
      · obtain ⟨b₁, hb₁, rfl⟩ := Option.map_eq_some_iff.mp hb
        exact hlive
      · exact hlater.binders j b hj hb
    · obtain ⟨b, hb, hentry⟩ := (List.forall₂_cons.mp hbinds.entries).1
      refine ⟨.cons ⟨{ b with scheme }, ?_, ?_⟩ .nil, List.forall_mem_singleton.mpr hlive⟩
      · rw [hmodify, if_pos rfl, hb]
        rfl
      · rw [(Prod.mk.inj hentry).1]

variable (F) in
theorem schemeOf_step (ofModule : Bool) (t : Ty) (s : CheckerState) :
    (schemeOf ofModule t).Yields s fun scheme s' =>
      Step F [] s s' (t.Live F s.store.size) (scheme.Live F s'.store.size) (fun _ => True) ∧
        (ofModule = false → scheme = .mono t) := by
  cases ofModule with
  | true =>
    refine ⟨.here fun ht hs => ⟨?_, fun _ _ => trivial⟩, nofun⟩
    exact Scheme.live_poly (TypeStore.live_zonk hs.closed ht).errorFree
  | false => exact ⟨.done Scheme.live_mono fun _ _ => trivial, fun _ => rfl⟩

/-- What the scheme of a function says, if the function is not generalised. `Γ₀` has its own name, if
it is recursive. -/
def FunctionTyped (names : TypeNames) (value : Environment → Ty → Prop) (Γ Γ₀ : Environment)
    (head : LetHead) (scheme : Scheme) : Prop :=
  ∃ ts result, ∃ Γ' : Environment, scheme = .mono (.curried ts result) ∧
    (∀ written ∈ head.returnType, Denotes names written result) ∧
    HasPatterns names head.params ts Γ' ∧
    value (Γ'.reverse ++ (Γ₀.map (fun entry => (entry.1, scheme)) ++ Γ)) result

theorem functionScheme_step (hJ : Scoping F J) (hhead : head.isFunction = true) (Γ : Environment)
    (hvalue : InfersValue F J V value head.innerNames Γ) (body : Expr) (stop : Nat) (ofModule : Bool)
    (s : CheckerState) :
    (functionScheme head body value stop ofModule).Yields s fun r s' => ∃ Γ₀ : Environment,
      Step F r.1.toList s s' (J Γ s ∧ head.isWhole = true)
        (s'.Binds F r.1.toList Γ₀ ∧ r.2.Live F s'.store.size) (fun σ => ofModule = false →
          FunctionTyped (s.typeNames σ) (V σ) (Γ.under σ) Γ₀ head (r.2.under σ)) ∧
      (ofModule = false → r.2.vars = []) ∧
      ((∃ i name own, r.1 = some i ∧ head.isRec = true ∧ head.name? = some name ∧
          Γ₀ = [(name.text, own)]) ∨
        r.1 = none ∧ Γ₀ = [] ∧ (head.isRec = true → head.name? = none)) := by
  refine (fresh_step F s).bind fun own s₁ h₁ => ?_
  refine (ownBinder_step F head own stop ofModule s₁).bind fun recursive s₂ h₂ => ?_
  obtain ⟨Γ₀, h₂, hown⟩ := h₂
  have hinner : InfersValue F J V value
      ((Pattern.boundNamesOfAll head.params).map (·.text)).reverse (Γ₀.reverse ++ Γ) := by
    intro Γ' hΓ'
    rw [← List.append_assoc]
    refine hvalue _ ?_
    rw [List.map_append, hΓ', LetHead.innerNames, if_pos hhead]
    rcases hown with ⟨i, name, -, hrec, hname, rfl⟩ | ⟨-, rfl, hrec⟩
    · simp [hrec, hname]
    · cases hr : head.isRec with
      | false => simp
      | true => simp [hrec hr]
  refine Yields.bind (withScope_step (functionParts_step hJ head body (Γ₀.reverse ++ Γ) hinner s₂)
    fun _ _ _ h => h) fun r s₃ h₃ => ?_
  obtain ⟨params, ret⟩ := r
  refine (expect_step F (.curried params ret) own _ s₃).bind fun _ s₄ h₄ => ?_
  refine (schemeOf_step F ofModule (.curried params ret) s₄).bind fun scheme s₅ h₅ => ?_
  obtain ⟨h₅, hmono⟩ := h₅
  rw [yields_pure]
  refine ⟨Γ₀, .cast (h₁.next (fun _ => trivial) (h₂.next And.right (h₃.next (fun h => ?_)
    (h₄.next (fun h => ?_) (h₅.imp (fun h => ?_) (fun h hscheme => ⟨?_, hscheme⟩) ?_))))) (by simp),
    ?_, ?_⟩
  · have hΓ₀ : Γ₀.IsMono := by
      rcases hown with ⟨i, name, -, -, -, rfl⟩ | ⟨-, rfl, -⟩ <;> simp [Environment.IsMono, Scheme.mono]
    exact ⟨hJ h₂.frame hΓ₀ h.2 (hJ.keep h₁.frame h.1.1.1), h.1.1.2⟩
  · exact ⟨Ty.live_curried.mpr h.2, h₃.frame.live (h₂.frame.live h.1.1.2)⟩
  · exact h₄.frame.live (Ty.live_curried.mpr h.1.2)
  · exact h₅.frame.binds (h₄.frame.binds (h₃.frame.binds h.1.1.2))
  · intro _ _ σ _ heq hparts _ _ hmodule
    obtain ⟨hret, Γ', hparams, hV⟩ := hparts
    have hscheme : scheme.under σ = .mono (.curried (params.map (Ty.subst σ.type)) (ret.subst σ.type)) := by
      rw [hmono hmodule, Scheme.under_mono, Ty.subst_curried]
    -- the function has its final type where it is used in its own right-hand side
    have hself : Environment.under σ Γ₀.reverse = Γ₀.map fun entry => (entry.1, scheme.under σ) := by
      rcases hown with ⟨i, name, -, -, -, rfl⟩ | ⟨-, rfl, -⟩
      · rw [hscheme, ← Ty.subst_curried, heq]
        simp
      · rfl
    rw [h₂.frame.typeNames, h₁.frame.typeNames] at hret hparams
    rw [Environment.under_append, hself] at hV
    exact ⟨_, _, Γ', hscheme, hret, hparams, hV⟩
  · intro hmodule
    rw [hmono hmodule, Scheme.mono]
  · rcases hown with ⟨i, name, rfl, hrec, hname, rfl⟩ | hnone
    · exact .inl ⟨i, name, .mono own, rfl, hrec, hname, rfl⟩
    · exact .inr hnone

theorem checkFunction_step (hJ : Scoping F J) (hhead : head.isFunction = true) (Γ : Environment)
    (hvalue : InfersValue F J V value head.innerNames Γ) (s : CheckerState) :
    (checkBinding head body value stop ofModule).Yields s fun bound s' => ∃ Γ' : Environment,
      (ofModule = false → Γ'.IsMono) ∧ Γ'.map (·.1) = head.boundNames.map (·.text) ∧
      Step F bound s s' (J Γ s ∧ head.isWhole = true) (s'.Binds F bound Γ') fun σ =>
        ofModule = false → head.pattern.isNamed = true →
          HasBinding (s.typeNames σ) (V σ) (Γ.under σ) head (Γ'.under σ) := by
  have hparams : head.params ≠ [] := by simpa [LetHead.isFunction] using hhead
  -- the typing of the function, in the form of the rule
  have htyped {names : TypeNames} {value : Environment → Ty → Prop} {Γ Γ₀ : Environment}
      {scheme : Scheme} {name : Ident} (hname : head.name? = some name)
      (hnamed : head.pattern.isNamed = true)
      (hΓ₀ : Γ₀.map (fun entry => (entry.1, scheme)) = if head.isRec then [(name.text, scheme)] else [])
      (h : FunctionTyped names value Γ Γ₀ head scheme) :
      HasBinding names value Γ head [(name.text, scheme)] := by
    obtain ⟨ts, result, Γ', rfl, hwritten, hpatterns, hvalue⟩ := h
    obtain ⟨span, hpattern⟩ : ∃ span, head.pattern = .named span name := by
      cases hp : head.pattern with
      | named span n => simp_all [LetHead.name?, Pattern.name?]
      | _ => simp [hp, Pattern.isNamed] at hnamed
    refine .function hparams hpattern hwritten hpatterns ?_
    rw [hΓ₀] at hvalue
    cases hrec : head.isRec <;> simpa [hrec] using hvalue
  rw [checkBinding_function hhead]
  refine (functionScheme_step hJ hhead Γ hvalue body stop ofModule s).bind fun r s₁ h₁ => ?_
  obtain ⟨recursive, scheme⟩ := r
  obtain ⟨Γ₀, h₁, hvars, hown⟩ := h₁
  have hmono (name : String) : ofModule = false → Environment.IsMono [(name, scheme)] := by
    simpa [Environment.IsMono] using hvars
  rcases hown with ⟨i, name, own, rfl, hrec, hname, rfl⟩ | ⟨rfl, rfl, hrec⟩
  · refine (rebind_step h₁).bind fun _ s₂ h₂ =>
      ⟨[(name.text, scheme)], hmono name.text, by simp [LetHead.boundNames, hhead, hname], ?_⟩
    refine h₂.imp id (fun _ => id) fun _ _ σ h hmodule hnamed => ?_
    exact htyped hname hnamed (by simp [hrec]) (h hmodule)
  · cases hname : head.name? with
    | some name =>
      simp only [bindFunction, hname]
      refine (bind_step F name scheme _ _ ofModule s₁).bind fun i s₂ h₂ =>
        ⟨[(name.text, scheme)], hmono name.text, by simp [LetHead.boundNames, hhead, hname], ?_⟩
      refine h₁.next id (h₂.imp (fun h => h.2.2) (fun _ => id) fun _ _ σ _ h hmodule hnamed => ?_)
      have hnotRec : head.isRec = false := by
        by_contra hr
        simp [hrec (by simpa using hr)] at hname
      exact htyped hname hnamed (by simp [hnotRec]) (h hmodule)
    | none =>
      simp only [bindFunction, hname]
      refine ⟨[], fun _ => (by rintro _ ⟨⟩), by simp [LetHead.boundNames, hhead, hname],
        h₁.imp id (fun _ h => h.1) fun _ _ σ _ _ hnamed => ?_⟩
      cases hp : head.pattern <;> simp_all [LetHead.name?, Pattern.name?, Pattern.isNamed]

variable (F) in
theorem valueType_step (hJ : Scoping F J) (head : LetHead) (Γ : Environment)
    (hvalue : Infers F (J Γ) (fun σ => V σ (Γ.under σ)) value) (s : CheckerState) :
    (valueType head value).Yields s fun t s' =>
      Step F [] s s' (J Γ s ∧ head.isWhole = true) (t.Live F s'.store.size) fun σ =>
        (∀ written ∈ head.returnType, Denotes (s.typeNames σ) written (t.subst σ.type)) ∧
          V σ (Γ.under σ) (t.subst σ.type) := by
  unfold valueType
  split
  case h_1 written heq =>
    refine (annotation_step F written s).bind fun t s₁ h₁ => ?_
    refine (hvalue (some t) s₁).bind fun _ s₂ h₂ => ?_
    refine h₁.next (fun h => ?_) (h₂.imp (fun h => ?_) (fun h _ => h₂.frame.live h.2) ?_)
    · simpa [LetHead.isWhole, heq] using (Bool.and_eq_true_iff.mp h.2).2
    · exact ⟨hJ.keep h₁.frame h.1.1, fun u hu => Option.some.inj hu ▸ h.2⟩
    · intro _ _ σ hV hwritten
      refine ⟨fun w hw => ?_, hV.2 t rfl⟩
      obtain rfl : written = w := Option.some.inj (heq ▸ hw)
      exact hwritten
  case h_2 heq =>
    refine (hvalue none s).mono fun t s₁ h₁ => ?_
    exact h₁.imp (fun h => ⟨h.1, nofun⟩) (fun _ => id) fun _ _ σ h =>
      ⟨fun w hw => by simp [heq] at hw, h.1⟩

variable (F) in
theorem bindValue_step (head : LetHead) (body : Expr) (t : Ty) (stop : Nat) (ofModule : Bool)
    (s : CheckerState) :
    (bindValue head body t stop ofModule).Yields s fun bound s' => ∃ Γ' : Environment,
      (ofModule = false → Γ'.IsMono) ∧ Γ'.map (·.1) = head.pattern.boundNames.map (·.text) ∧
      Step F bound s s' (head.isWhole = true ∧ t.Live F s.store.size) (s'.Binds F bound Γ') fun σ =>
        ofModule = false → HasPattern (s.typeNames σ) head.pattern (t.subst σ.type) (Γ'.under σ) := by
  unfold bindValue
  split
  case h_1 span name heq =>
    refine (schemeOf_step F (ofModule && body.isLambda) t s).bind fun scheme s₁ h₁ => ?_
    obtain ⟨h₁, hmono⟩ := h₁
    refine (bind_step F name scheme [] ⟨head.span.stop, stop⟩ ofModule s₁).bind fun i s₂ h₂ => ?_
    refine ⟨[(name.text, scheme)], fun hmodule => ?_, by simp [heq, Pattern.boundNames],
      h₁.next And.right (h₂.imp And.right (fun _ => id) ?_)⟩
    · simp [Environment.IsMono, hmono (by simp [hmodule]), Scheme.mono]
    · intro _ _ σ _ _ hmodule
      rw [hmono (by simp [hmodule]), heq]
      simpa using .named
  case h_2 =>
    refine (bindPattern_step F _ ofModule head.pattern t s).mono fun bound s₁ h₁ => ?_
    obtain ⟨Γ', hmono, hnames, h₁⟩ := h₁
    refine ⟨Γ', fun _ => hmono, hnames, h₁.imp (fun h => ?_) (fun _ => id) fun _ _ σ h _ => h⟩
    simp only [LetHead.isWhole, Bool.and_eq_true] at h
    exact ⟨h.1.1.1, h.2⟩

/-- What the rules say about bindings holds of local ones, unless the name of a function has a type of
its own or a value is recursive. -/
theorem checkBinding_step (hJ : Scoping F J) (head : LetHead) (Γ : Environment)
    (hvalue : InfersValue F J V value head.innerNames Γ) (body : Expr) (stop : Nat) (ofModule : Bool)
    (s : CheckerState) :
    (checkBinding head body value stop ofModule).Yields s fun bound s' => ∃ Γ' : Environment,
      (ofModule = false → Γ'.IsMono) ∧ Γ'.map (·.1) = head.boundNames.map (·.text) ∧
      Step F bound s s' (J Γ s ∧ head.isWhole = true) (s'.Binds F bound Γ') fun σ =>
        ofModule = false → (if head.isFunction then head.pattern.isNamed else !head.isRec) = true →
          HasBinding (s.typeNames σ) (V σ) (Γ.under σ) head (Γ'.under σ) := by
  cases hhead : head.isFunction with
  | true => exact checkFunction_step hJ hhead Γ hvalue s
  | false =>
    have hparams : head.params = [] := by simpa [LetHead.isFunction] using hhead
    rw [checkBinding_value hhead]
    have hinner := hvalue [] (by simp [LetHead.innerNames, hhead])
    refine (valueType_step F hJ head Γ hinner s).bind fun t s₁ h₁ => ?_
    refine (bindValue_step F head body t stop ofModule s₁).mono fun bound s₂ h₂ => ?_
    obtain ⟨Γ', hmono, hnames, h₂⟩ := h₂
    refine ⟨Γ', hmono, by simpa [LetHead.boundNames, hhead] using hnames,
      h₁.next id (h₂.imp (fun h => ⟨h.1.2, h.2⟩) (fun _ => id) ?_)⟩
    intro _ _ σ hpattern hvalue hmodule hrec
    have hnotRec : head.isRec = false := by simpa using hrec
    rw [h₁.frame.typeNames] at hpattern
    refine .value hparams hvalue.1 (hpattern hmodule) ?_
    simpa [hnotRec] using hvalue.2

end Checker

theorem Scheme.hasInstance_under {F : Nat → Prop} {scheme : Scheme} {σ : Solution} {k n : Nat}
    (hlive : scheme.Live F k) (hvars : ∀ v ∈ scheme.vars, F v)
    (hσ : ∀ v, ¬F v → ∀ w ∈ (σ.type v).vars, ¬F w) :
    (scheme.under σ).HasInstance (scheme.type.subst fun v =>
      (scheme.vars.idxOf? v).elim (σ.type v) fun i => σ.type (n + i)) := by
  let f (v : Nat) : Ty := (scheme.vars.idxOf? v).elim (.var v) fun i => σ.type (n + i)
  have hf (v : Nat) (hv : v ∉ scheme.vars) : f v = .var v := by
    simp only [f, List.idxOf?_eq_none_iff.mpr hv, Option.elim]
  refine ⟨f, hf, ?_⟩
  rw [Scheme.under, Ty.subst_subst]
  refine Ty.subst_congr fun v hv => ?_
  by_cases hmem : v ∈ scheme.vars
  · rw [if_pos hmem]
    cases hi : scheme.vars.idxOf? v with
    | none => exact absurd hmem (List.idxOf?_eq_none_iff.mp hi)
    | some i => simp only [Ty.subst, f, hi, Option.elim]
  · rw [if_neg hmem, List.idxOf?_eq_none_iff.mpr hmem]
    have hapart := hσ v ((hlive.vars v hv).resolve_left hmem).2
    calc σ.type v = (σ.type v).subst .var := (Ty.subst_var _).symm
      _ = (σ.type v).subst f := Ty.subst_congr fun w hw =>
        (hf w fun hw' => hapart w hw (hvars w hw')).symm

namespace Checker

variable {F : Nat → Prop}

variable (F) in
theorem binderCallee_step (index : Nat) (span : Span) (s : CheckerState) :
    (binderCallee index span).Yields s fun c s' =>
      Step F [] s s' (∃ b, s.binders[index]? = some b ∧ b.scheme.Live F s.store.size)
        (c.Live F s'.store.size) fun σ => ∀ b, s.binders[index]? = some b →
          (∀ v ∈ b.scheme.vars, F v) → ∀ M, c.Typed M σ (b.scheme.under σ).HasInstance := by
  let used := s.binders.modify index fun b => { b with used := true }
  have hused (i : Nat) : used[i]? =
      if index = i then s.binders[i]?.map fun b => { b with used := true } else s.binders[i]? :=
    Array.getElem?_modify
  have hmark {pre : Prop} : Step F [] s { s with binders := used } pre True fun _ => True := by
    refine ⟨⟨Nat.le_refl _, Nat.le_refl _, rfl, rfl, rfl, fun _ _ h => h, fun i b hb => ?_, by simp⟩,
      fun _ _ hs => ⟨⟨hs.frozen, hs.closed, hs.typeVars, hs.abbreviations, hs.constructors⟩,
        .of_binders (.refl F _) rfl fun i b hi hb => ?_, trivial, fun _ _ => trivial⟩⟩
    · rw [hused]
      split
      · exact ⟨{ b with used := true }, by simp [hb], rfl, rfl⟩
      · exact ⟨b, hb, rfl, rfl⟩
    · have hsize : used.size = s.binders.size := Array.size_modify
      rw [Array.getElem?_eq_none (hsize ▸ hi)] at hb
      cases hb
  -- the binder is marked as used and mentioned before its scheme is instantiated; neither changes its scheme
  simp only [binderCallee, yields_bind, yields_modify]
  refine (mention_step F span (.binder index) { s with binders := used }).mono fun _ s₀ h₀ => ?_
  rw [yields_binderAt]
  let s₁ := s₀.demand .binder (index < s₀.binders.size)
  have hstart {pre : Prop} : Step F [] s s₁ pre True fun _ => True :=
    hmark.next id (h₀.next (fun _ => trivial) ((demand_step F .binder _ s₀).imp (fun _ => trivial)
      (fun _ => id) fun _ _ _ _ _ => id))
  have hframe : s.Frame [] s₁ := (hstart : Step F [] s s₁ True _ _).frame
  rw [show s₀.binders[index]? = s₁.binders[index]? from rfl]
  split
  case h_1 hnone =>
    refine hstart.imp id (fun h _ => ?_) fun h _ σ _ b hb => ?_
    · obtain ⟨b, hb, -⟩ := h
      obtain ⟨b', hb', -⟩ := hframe.binders index b hb
      simp [hnone] at hb'
    · obtain ⟨b', hb', -⟩ := hframe.binders index b hb
      simp [hnone] at hb'
  case h_2 b' hb' =>
    have hscheme {b : Binder} (hb : s.binders[index]? = some b) : b'.scheme = b.scheme := by
      obtain ⟨b₁, hb₁, -, hscheme⟩ := hframe.binders index b hb
      obtain rfl : b' = b₁ := Option.some.inj (hb'.symm.trans hb₁)
      exact hscheme
    simp only [yields_bind, yields_zonk, yields_pure]
    have hinstance := instantiate_step F b'.scheme s₁
    rw [yields_instantiate] at hinstance ⊢
    refine hstart.next id (hinstance.next (fun h => ?_) (.here fun h hs => ⟨h.2, ?_⟩))
    · obtain ⟨⟨b, hb, hlive⟩, -⟩ := h
      exact hscheme hb ▸ hlive.mono hframe.size
    · intro σ hσ hT _ b hb hvars M
      obtain ⟨⟨⟨b₀, hb₀, hlive⟩, -⟩, -⟩ := h
      obtain rfl : b₀ = b := Option.some.inj (hb₀.symm.trans hb)
      rw [Callee.Typed, hT, hscheme hb]
      exact Scheme.hasInstance_under hlive hvars hσ.apart

end Checker
end ScriptAnalyzer

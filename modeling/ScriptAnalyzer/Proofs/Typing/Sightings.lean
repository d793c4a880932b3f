import ScriptAnalyzer.Proofs.Typing.Finding

/-!
The way of the checker through a file records no name without reason: each name declares something, is a
label, means a binder, is the member of a value, or is found through an entity in sight from its place.
-/

namespace ScriptAnalyzer

open CheckerState

variable {L : Landmark → Prop} {N : LongIdent → Prop} {w : Span → String} {outer : List String}
variable {n stop : Nat} {a b : Cut} {live : List (Span × Nat)} {es : List Expr} {o o' : CheckerState}

namespace Expr

/-- The dotted names that the expression and its parts spell are such as `N` says. -/
def Spells (N : LongIdent → Prop) (e : Expr) : Prop :=
  ∀ d ∈ e.preorder, ∀ name, d.longName? = some name → N name

theorem Spells.child {e c : Expr} (h : e.Spells N) (hc : c ∈ e.children) : c.Spells N :=
  fun d hd => h d (preorder_of_child hc hd)

theorem dotted_cases {e : Expr} {written : LongIdent} (h : e.dotted? = some written) :
    e.longName? = some written ∨ ∃ c ∈ e.children, c.longName? = some written := by
  cases e with
  | member span target dot name =>
    cases name with
    | none => exact .inr ⟨target, List.mem_singleton_self _, h⟩
    | some name => exact .inl h
  | _ => exact .inl h

theorem Spells.leading {e : Expr} {written name : LongIdent} (h : e.Spells N)
    (hwritten : e.dotted? = some written) (hleading : name.parts <+: written.parts) : N name := by
  rcases dotted_cases hwritten with hwritten | ⟨c, hc, hwritten⟩
  · obtain ⟨d, hd, hname⟩ := exists_of_prefix hwritten hleading
    exact h d hd name hname
  · obtain ⟨d, hd, hname⟩ := exists_of_prefix hwritten hleading
    exact h.child hc d hd name hname

theorem names_of_dotted {e : Expr} {written : LongIdent} (h : e.dotted? = some written) :
    ∀ n ∈ written.parts, n ∈ e.names := by
  intro n hn
  rcases dotted_cases h with h | ⟨c, hc, h⟩
  · exact parts_of_longName h n hn
  · rw [names_eq]
    exact List.mem_append_left _ (List.mem_flatMap.mpr ⟨c, hc, parts_of_longName h n hn⟩)

theorem not_plain_of_dotted {e : Expr} (h : e.dotted? ≠ none) : e.isPlain = false := by
  cases e with
  | ident _ | member _ _ _ _ => rfl
  | _ => exact absurd rfl h

theorem dotted_target {span dot : Span} {target : Expr} {name : Option Ident}
    (h : (member span target dot name).dotted? ≠ none) : target.dotted? ≠ none := by
  have htarget : target.longName? ≠ none := by
    cases name with
    | none => exact h
    | some name => exact fun hnone => h (Option.map_eq_none_iff.mpr hnone)
  cases target with
  | member span target dot name =>
    cases name with
    | none => exact absurd rfl htarget
    | some name => exact htarget
  | _ => exact htarget

end Expr

/-- Behind a dotted name the other expressions stand. -/
theorem Lies.behind {e : Expr} (h : Lies (e :: es) a b) (he : e.dotted? ≠ none) :
    ∃ k, a ≤ k ∧ (∀ n ∈ e.names, n.span.stop ≤ k.stop) ∧ Lies es k b := by
  cases h with
  | plain hplain => rw [Expr.not_plain_of_dotted he] at hplain; cases hplain
  | ident ham _ hstop hes =>
    refine ⟨_, ham, fun n hn => ?_, hes⟩
    rw [Expr.names_ident, List.mem_singleton] at hn
    exact hn ▸ hstop
  | member htarget hmk hname hes =>
    refine ⟨_, Cut.le_trans htarget.le hmk, fun n hn => ?_, hes⟩
    rw [Expr.names_member, List.mem_append, Option.mem_toList] at hn
    rcases hn with hn | hn
    · exact Nat.le_trans (htarget.names_between List.mem_cons_self n hn).2 hmk.1
    · exact (hname n hn).2
  | lambda | letIn => exact absurd rfl he

theorem Enters.adds {visible : Span} {ofModule : Bool} {names : List Ident} {is : List Nat}
    (h : Enters L visible ofModule names is o o') (hstart : n ≤ visible.start) :
    Adds L N outer n stop o o' := by
  induction h with
  | nil o => exact .refl o
  | note hlabel _ _ ih => exact (Adds.of_mention (.note _ _ _) rfl (.label hlabel rfl)).andThen ih
  | skip _ ih => exact ih
  | bind _ _ _ _ _ _ ih => exact (Adds.of_mention (.enter hstart _) rfl (.definition rfl)).andThen ih

theorem Enters.containers {visible : Span} {ofModule : Bool} {names : List Ident} {is : List Nat}
    (h : Enters L visible ofModule names is o o') :
    o'.scope.modulePath = o.scope.modulePath ∧ o'.scope.opens = o.scope.opens := by
  induction h with
  | nil => exact ⟨rfl, rfl⟩
  | note _ _ _ ih | skip _ ih | bind _ _ _ _ _ _ ih => exact ih

/-- Nothing comes into scope in dotted names. -/
theorem Visits.grows_of_dotted (h : Visits L es o o') (hes : ∀ e ∈ es, e.dotted? ≠ none) (n : Nat) :
    Grows n o o' := by
  induction h with
  | nil o => exact .refl n o
  | skip _ ih => exact ih (List.forall_mem_cons.mp hes).2
  | note _ _ _ ih => exact (Grows.note _ _ _).trans (ih hes)
  | find _ _ _ _ _ ih => exact (Grows.note _ _ _).trans (ih hes)
  | use _ _ _ ih => exact (Grows.use _ _ _).trans (ih (List.forall_mem_cons.mp hes).2)
  | access _ ih => exact (Grows.access _ _).trans (ih (List.forall_mem_cons.mp hes).2)
  | accessValue _ _ ih₁ ih₂ =>
    obtain ⟨he, hes⟩ := List.forall_mem_cons.mp hes
    have htarget := ih₁ (List.forall_mem_singleton.mpr (Expr.dotted_target he))
    exact htarget.trans ((Grows.access _ _).trans (ih₂ hes))
  | accessMember _ _ _ ih₁ ih₂ =>
    obtain ⟨he, hes⟩ := List.forall_mem_cons.mp hes
    have htarget := ih₁ (List.forall_mem_singleton.mpr (Expr.dotted_target he))
    exact htarget.trans ((Grows.access _ _).trans ((Grows.note _ _ _).trans (ih₂ hes)))
  | plain hplain =>
    rw [Expr.not_plain_of_dotted (List.forall_mem_cons.mp hes).1] at hplain
    cases hplain
  | lambda | letIn => exact absurd rfl (List.forall_mem_cons.mp hes).1

/-- What is known in front of expressions between two cuts. -/
structure Ready (N : LongIdent → Prop) (w : Span → String) (outer : List String) (es : List Expr)
    (a b : Cut) (live : List (Span × Nat)) (o : CheckerState) : Prop where
  spells : ∀ e ∈ es, e.Spells N
  lies : Lies es a b
  covers : Covers live es
  reached : Scoped w a live o
  opened : o.Opened outer a.next b.stop

namespace Ready

variable {e : Expr} {k : Cut}

theorem tail (h : Ready N w outer (e :: es) a b live o) : Ready N w outer es a b live o :=
  ⟨(List.forall_mem_cons.mp h.spells).2, h.lies.tail, h.covers.tail, h.reached, h.opened⟩

theorem behind (h : Ready N w outer (e :: es) a b live o) (hak : a ≤ k) (hes : Lies es k b) :
    Ready N w outer es k b live o :=
  { h.tail with
    lies := hes
    reached := h.reached.later hak
    opened := h.opened.mono hak.2 (Nat.le_refl _) }

theorem keep (h : Ready N w outer es a b live o) (hsame : SameScope o o') (hgrows : Grows n o o')
    (hscope : o'.scope = o.scope) : Ready N w outer es a b live o' :=
  { h with
    reached := h.reached.keep hsame
    opened := h.opened.keep hgrows (congrArg (·.modulePath) hscope) (congrArg (·.opens) hscope) }

theorem children (h : Ready N w outer (e :: es) a b live o) (hplain : e.isPlain = true) :
    Ready N w outer (e.children ++ es) a b live o where
  spells := by
    obtain ⟨he, hes⟩ := List.forall_mem_cons.mp h.spells
    exact List.forall_mem_append.mpr ⟨fun c hc => he.child hc, hes⟩
  lies := by
    cases h.lies with
    | plain _ h => exact h
    | ident | member | lambda | letIn => cases hplain
  covers := h.covers.children hplain
  reached := h.reached
  opened := h.opened

end Ready

/-- Checking the expressions adds only names that are accounted for. -/
def AddsNames (L : Landmark → Prop) (N : LongIdent → Prop) (w : Span → String) (outer : List String)
    (es : List Expr) (o o' : CheckerState) : Prop :=
  ∀ {a b live}, Ready N w outer es a b live o → Adds L N outer a.stop b.stop o o'

/-- The target of a member access that is that of a value, and what is behind it. -/
theorem target_adds {span dot : Span} {target : Expr} {name : Option Ident} {o₁ o₂ : CheckerState}
    (hL : Written L w) (hvisit : Visits L [target] o o₁) (htarget : AddsNames L N w outer [target] o o₁)
    (haccess : ∀ n, Adds L N outer n 0 o₁ o₂) (hsame : SameScope o₁ o₂) (hscope : o₂.scope = o₁.scope)
    (hrest : AddsNames L N w outer es o₂ o')
    (h : Ready N w outer (.member span target dot name :: es) a b live o) :
    Adds L N outer a.stop b.stop o o' ∧ ((Expr.member span target dot name).dotted? ≠ none →
      ∃ k, (∀ n ∈ (Expr.member span target dot name).names, n.span.stop ≤ k) ∧ Grows k o o') := by
  cases h.lies with
  | plain hplain => cases hplain
  | @member _ _ _ _ _ _ m k _ htargetLies hmk hname hes =>
    have hak : a ≤ k := Cut.le_trans htargetLies.le hmk
    have hready : Ready N w outer [target] a m live o :=
      ⟨List.forall_mem_singleton.mpr ((h.spells _ List.mem_cons_self).child (List.mem_singleton_self _)),
        htargetLies, h.covers.target, h.reached,
        h.opened.mono (Nat.le_refl _) (Nat.le_trans hmk.1 hes.le.1)⟩
    have hadds₁ := htarget hready
    have hopened₁ : o₁.Opened outer k.next b.stop :=
      (h.opened.mono hak.2 (Nat.le_refl _)).keep hadds₁.grows (congrArg (·.modulePath) hvisit.scope)
        (congrArg (·.opens) hvisit.scope)
    have hready₁ : Ready N w outer es k b live o₁ :=
      { h.behind hak hes with
        reached := ((hvisit.scoped hL htargetLies) h.covers.target h.reached).later hmk
        opened := hopened₁ }
    have hadds₂ := hrest (hready₁.keep hsame (haccess 0).grows hscope)
    have hadds₃ := (haccess k.stop).andThen hadds₂
    refine ⟨hadds₁.trans hadds₃ hak.1 hmk.1 (Nat.le_trans hmk.1 hes.le.1), fun hdotted => ?_⟩
    obtain ⟨k', hak', hnames, hes'⟩ := h.lies.behind hdotted
    have htargetGrows := hvisit.grows_of_dotted (List.forall_mem_singleton.mpr (Expr.dotted_target hdotted))
    refine ⟨k.stop, fun n hn => ?_, (htargetGrows k.stop).trans hadds₃.grows⟩
    rw [Expr.names_member, List.mem_append, Option.mem_toList] at hn
    rcases hn with hn | hn
    · exact Nat.le_trans (htargetLies.names_between List.mem_cons_self n hn).2 hmk.1
    · exact (hname n hn).2

/-- A binding and what its right-hand side `value` adds. -/
theorem binding_adds {head : LetHead} {value : Expr} {last : Nat} {ofModule : Bool}
    {early own late : List Nat} {scheme : Scheme} {o₁ o₂ o₃ : CheckerState} (hL : Written L w)
    (hearly : Enters L ⟨head.span.start, last⟩ ofModule head.early early o o₁)
    (hown : Enters L value.span false (Pattern.boundNamesOfAll head.params) own o₁ o₂)
    (hvalue : AddsNames L N w outer [value] o₂ o₃)
    (hlate : Enters L ⟨head.span.stop, last⟩ ofModule head.late late
      (({ o₃ with scope := o₁.scope } : CheckerState).settle early scheme) o')
    (hlies : head.Lies value last a b) (h : Ready N w outer [value] a b live o) :
    Adds L N outer a.stop b.stop o o' ∧ o'.scope.modulePath = o.scope.modulePath ∧
      o'.scope.opens = o.scope.opens := by
  obtain ⟨new, own, -, hscoped₂, hcovers₂, -, -⟩ := value_scoped hL hearly hown hlies h.covers h.reached
  have hab := h.lies.le
  have hadds₁ : Adds L N outer a.stop 0 o o₁ := hearly.adds hlies.front
  have hadds₂ : Adds L N outer a.stop 0 o₁ o₂ := hown.adds hlies.params
  have hfront := hadds₁.andThen hadds₂
  have hopened₂ : o₂.Opened outer a.next b.stop := h.opened.keep hfront.grows
    (hown.containers.1.trans hearly.containers.1) (hown.containers.2.trans hearly.containers.2)
  have hadds₃ := hvalue ⟨h.spells, h.lies, hcovers₂, hscoped₂, hopened₂⟩
  have hclosed : Adds L N outer b.stop 0 o₃
      (({ o₃ with scope := o₁.scope } : CheckerState).settle early scheme) :=
    .of_grows ((Grows.scope o₃ o₁.scope).trans (.settle _ early scheme)) (by rw [settle_records])
  have hadds₄ : Adds L N outer b.stop b.stop o₃ o' := hclosed.andThen (hlate.adds hlies.behind)
  have hcontainers := hlate.containers
  rw [settle_scope] at hcontainers
  refine ⟨?_, hcontainers.1.trans hearly.containers.1, hcontainers.2.trans hearly.containers.2⟩
  exact (hfront.andThen hadds₃).trans hadds₄ hab.1 (Nat.le_refl _) (Nat.le_refl _)

/-- A name that is looked up as a binder, and what is behind it. -/
theorem use_adds {x : Ident} {i : Nat} (hL : Written L w) (hx : L (.use x)) (hi : o.binder? x.text = some i)
    (hrest : AddsNames L N w outer es (o.useBinder i x.span) o')
    (h : Ready N w outer (.ident x :: es) a b live o) :
    Adds L N outer a.stop b.stop o o' ∧ ∃ k, x.span.stop ≤ k ∧ Grows k o o' := by
  cases h.lies with
  | plain hplain => cases hplain
  | @ident _ _ _ m _ ham hstart hstop hes =>
    have hbehind := h.behind ham hes
    have hready : Ready N w outer es m b live (o.useBinder i x.span) := {
      hbehind with
      reached := h.reached.use ham hstart hstop
        (fun v hv => h.covers v hv _ List.mem_cons_self x (by simp [Expr.names_ident])) (hL.use x hx) hi
      opened := hbehind.opened.keep (.use (n := 0) _ _ _) rfl rfl }
    have hadds := (Adds.of_mention (.use o i x.span) rfl (.binder rfl)).andThen (hrest hready)
    exact ⟨⟨hadds.grows.weaken ham.1, hadds.mentions⟩, m.stop, hstop, hadds.grows⟩

/-- A name that is found through an entity. Up to the end of the dotted name nothing comes into scope, so it
is found from the whole place of the name. -/
theorem found_adds {e : Expr} {written name : LongIdent} {symbol : Symbol} {k : Nat}
    (hN : ∀ name, N name → ∀ n ∈ name.parts, n.text ≠ "") (hwritten : e.dotted? = some written)
    (hleading : name.parts <+: written.parts) (hfree : o.binder? name.head.text = none)
    (hfinds : o.Finds name symbol) (hrest : Adds L N outer a.stop b.stop (o.note name.last.span symbol) o')
    (hk : ∀ n ∈ e.names, n.span.stop ≤ k) (hgrows : Grows k (o.note name.last.span symbol) o')
    (h : Ready N w outer (e :: es) a b live o) : Adds L N outer a.stop b.stop o o' := by
  have hlast : name.last ∈ e.names := Expr.names_of_dotted hwritten _ (hleading.subset name.last_mem)
  obtain ⟨hstart, hstop⟩ := h.lies.names_between List.mem_cons_self _ hlast
  have hname : N name := (h.spells e List.mem_cons_self).leading hwritten hleading
  have hsees : o.Sees outer name symbol := h.reached.sees h.opened hstart hstop
    (fun v hv => h.covers v hv e List.mem_cons_self _ hlast) (hN name hname) hfree hfinds
  have hseen := (hsees.keep (.note o name.last.span symbol) (Nat.le_refl _)).keep hgrows (hk _ hlast)
  refine ⟨(Grows.note _ _ _).trans hrest.grows, fun m hm => ?_⟩
  rcases hrest.mentions m hm with hm | hm
  · rcases List.mem_cons.mp hm with rfl | hm
    · exact .inr (.found hname rfl rfl hstop hseen)
    · exact .inl hm
  · exact .inr hm

/-- A function, and what is behind it. -/
theorem lambda_adds {span : Span} {params : List Pattern} {body : Expr} {is : List Nat} {o₁ o₂ : CheckerState}
    (hL : Written L w) (henters : Enters L body.span false (Pattern.boundNamesOfAll params) is o o₁)
    (hvisit : Visits L [body] o₁ o₂) (hbody : AddsNames L N w outer [body] o₁ o₂)
    (hrest : AddsNames L N w outer es { o₂ with scope := o.scope } o')
    (h : Ready N w outer (.lambda span params body :: es) a b live o) :
    Adds L N outer a.stop b.stop o o' := by
  cases h.lies with
  | plain hplain => cases hplain
  | @lambda _ _ _ _ _ m _ hstart hwithin hend hbodyLies hes =>
    obtain ⟨new, hscoped₁, hnew⟩ := henters.scoped hL h.reached hstart
    have hadds₁ : Adds L N outer a.stop 0 o o₁ := henters.adds hstart
    have hready₁ : Ready N w outer [body] a m (new ++ live) o₁ := {
      spells := List.forall_mem_singleton.mpr
        ((h.spells _ List.mem_cons_self).child (List.mem_singleton_self _))
      lies := hbodyLies
      covers := h.covers.lambda.enter fun v hv => hnew v hv ▸ hwithin
      reached := hscoped₁
      opened := (h.opened.mono (Nat.le_refl _) hes.le.1).keep hadds₁.grows henters.containers.1
        henters.containers.2 }
    have hinner := hadds₁.andThen (hbody hready₁)
    have hscoped₂ := hvisit.scoped hL hbodyLies hready₁.covers hscoped₁
    have hbehind := h.behind hbodyLies.le hes
    have hready₂ : Ready N w outer es m b live { o₂ with scope := o.scope } := {
      hbehind with
      reached := hscoped₂.close h.reached.scope fun v hv => hnew v hv ▸ hend
      opened := hbehind.opened.keep (hinner.grows.trans (.scope o₂ o.scope)) rfl rfl }
    have hbehindAdds := (Adds.of_grows (.scope o₂ o.scope) rfl).andThen (hrest hready₂)
    exact hinner.trans hbehindAdds hbodyLies.le.1 (Nat.le_refl _) hes.le.1

/-- A local binding with its body, and what is behind it. -/
theorem letIn_adds {span : Span} {head : LetHead} {value body : Expr} {early own late : List Nat}
    {scheme : Scheme} {o₁ o₂ o₃ o₄ o₅ : CheckerState} (hL : Written L w)
    (hearly : Enters L ⟨head.span.start, body.span.stop⟩ false head.early early o o₁)
    (hown : Enters L value.span false (Pattern.boundNamesOfAll head.params) own o₁ o₂)
    (hvalueVisit : Visits L [value] o₂ o₃) (hvalue : AddsNames L N w outer [value] o₂ o₃)
    (hlate : Enters L ⟨head.span.stop, body.span.stop⟩ false head.late late
      (({ o₃ with scope := o₁.scope } : CheckerState).settle early scheme) o₄)
    (hbodyVisit : Visits L [body] o₄ o₅) (hbody : AddsNames L N w outer [body] o₄ o₅)
    (hrest : AddsNames L N w outer es { o₅ with scope := o.scope } o')
    (h : Ready N w outer (.letIn span head value body :: es) a b live o) :
    Adds L N outer a.stop b.stop o o' := by
  cases h.lies with
  | plain hplain => cases hplain
  | @letIn _ _ _ _ _ _ m k _ hhead hwithin hend hvalueLies hbodyLies hes =>
    obtain ⟨hvalueCovers, hbodyCovers⟩ := h.covers.letIn
    have hspells := h.spells _ List.mem_cons_self
    have hmb := Nat.le_trans hbodyLies.le.1 hes.le.1
    have hreadyValue : Ready N w outer [value] a m live o := {
      spells := List.forall_mem_singleton.mpr (hspells.child List.mem_cons_self)
      lies := hvalueLies
      covers := hvalueCovers
      reached := h.reached
      opened := h.opened.mono (Nat.le_refl _) hmb }
    obtain ⟨hadds₁, hmodule, hopens⟩ := binding_adds hL hearly hown hvalue hlate hhead hreadyValue
    obtain ⟨new, hscoped₁, hnew⟩ :=
      binding_scoped hL hearly hown (hvalueVisit.scoped hL hvalueLies) hlate hhead hvalueCovers h.reached
    have hreadyBody : Ready N w outer [body] m k (new ++ live) o₄ := {
      spells := List.forall_mem_singleton.mpr
        (hspells.child (List.mem_cons_of_mem _ (List.mem_singleton_self _)))
      lies := hbodyLies
      covers := hbodyCovers.enter fun v hv =>
        hwithin.mono (hnew v hv).2.1 (Nat.le_of_eq (hnew v hv).2.2.symm)
      reached := hscoped₁
      opened := (h.opened.mono hvalueLies.le.2 hes.le.1).keep hadds₁.grows hmodule hopens }
    have hinner := hadds₁.trans (hbody hreadyBody) hvalueLies.le.1 (Nat.le_refl _) hbodyLies.le.1
    have hscoped₂ := hbodyVisit.scoped hL hbodyLies hreadyBody.covers hscoped₁
    have hbehind := h.behind (Cut.le_trans hvalueLies.le hbodyLies.le) hes
    have hready₃ : Ready N w outer es k b live { o₅ with scope := o.scope } := {
      hbehind with
      reached := hscoped₂.close h.reached.scope fun v hv => (hnew v hv).2.2 ▸ hend
      opened := hbehind.opened.keep (hinner.grows.trans (.scope o₅ o.scope)) rfl rfl }
    have hbehindAdds := (Adds.of_grows (.scope o₅ o.scope) rfl).andThen (hrest hready₃)
    exact hinner.trans hbehindAdds (Cut.le_trans hvalueLies.le hbodyLies.le).1 (Nat.le_refl _) hes.le.1

/-- What a way through expressions adds. In a dotted name in front nothing comes into scope. -/
theorem Visits.adds (hL : Written L w) (hN : ∀ name, N name → ∀ n ∈ name.parts, n.text ≠ "")
    (h : Visits L es o o') (hready : Ready N w outer es a b live o) :
    Adds L N outer a.stop b.stop o o' ∧ ∀ e rest, es = e :: rest → e.dotted? ≠ none →
      ∃ k, (∀ n ∈ e.names, n.span.stop ≤ k) ∧ Grows k o o' := by
  induction h generalizing a b live with
  | nil o => exact ⟨.refl o, nofun⟩
  | skip _ ih =>
    refine ⟨(ih hready.tail).1, fun e rest heq hdotted => ?_⟩
    obtain ⟨rfl, rfl⟩ := List.cons.inj heq
    obtain ⟨k, hak, hnames, hes⟩ := hready.lies.behind hdotted
    exact ⟨k.stop, hnames, (ih (hready.behind hak hes)).1.grows⟩
  | note hlabel _ _ ih =>
    obtain ⟨hadds, hdotted⟩ := ih (hready.keep (.note _ _ _) (.note (n := 0) _ _ _) rfl)
    refine ⟨(Adds.of_mention (.note _ _ _) rfl (.label hlabel rfl)).andThen hadds, fun e rest heq he => ?_⟩
    obtain ⟨k, hk, hgrows⟩ := hdotted e rest heq he
    exact ⟨k, hk, (Grows.note _ _ _).trans hgrows⟩
  | plain hplain _ ih =>
    refine ⟨(ih (hready.children hplain)).1, fun e rest heq he => ?_⟩
    obtain ⟨rfl, rfl⟩ := List.cons.inj heq
    rw [Expr.not_plain_of_dotted he] at hplain
    cases hplain
  | use hx hi _ ih =>
    obtain ⟨hadds, k, hk, hgrows⟩ := use_adds hL hx hi (fun h => (ih h).1) hready
    refine ⟨hadds, fun e rest heq _ => ⟨k, fun n hn => ?_, hgrows⟩⟩
    obtain ⟨rfl, rfl⟩ := List.cons.inj heq
    rw [Expr.names_ident, List.mem_singleton] at hn
    exact hn ▸ hk
  | @find e es written name symbol o _ hwritten hleading hfree hfinds _ ih =>
    obtain ⟨hadds, hdotted⟩ := ih (hready.keep (.note _ _ _) (.note (n := 0) _ _ _) rfl)
    obtain ⟨k, hk, hgrows⟩ := hdotted e es rfl (by rw [hwritten]; exact Option.some_ne_none _)
    refine ⟨found_adds hN hwritten hleading hfree hfinds hadds hk hgrows hready, fun e' rest heq _ => ?_⟩
    obtain ⟨rfl, rfl⟩ := List.cons.inj heq
    exact ⟨k, hk, (Grows.note _ _ _).trans hgrows⟩
  | @access span dot target name es path o _ _ ih =>
    have hstep {k : Cut} (hak : a ≤ k) (hes : Lies es k b) : Adds L N outer k.stop b.stop o _ :=
      (Adds.of_grows (.access o _) rfl).andThen
        (ih ((hready.behind hak hes).keep (.access _ _) (.access (n := 0) _ _) rfl)).1
    refine ⟨hstep (Cut.le_refl a) hready.lies.tail, fun e rest heq hdotted => ?_⟩
    obtain ⟨rfl, rfl⟩ := List.cons.inj heq
    obtain ⟨k, hak, hnames, hes⟩ := hready.lies.behind hdotted
    exact ⟨k.stop, hnames, (hstep hak hes).grows⟩
  | accessValue htarget _ ih₁ ih₂ =>
    have hadds := target_adds hL htarget (fun h => (ih₁ h).1) (fun _ => .of_grows (.access _ _) rfl)
      (.access _ _) rfl (fun h => (ih₂ h).1) hready
    refine ⟨hadds.1, fun e rest heq hdotted => ?_⟩
    obtain ⟨rfl, rfl⟩ := List.cons.inj heq
    exact hadds.2 hdotted
  | @accessMember span dot target name es t symbol o o₁ _ htarget _ _ ih₁ ih₂ =>
    let site : MemberSite := ⟨dot, some name.span, span, .value t⟩
    have hsite (n : Nat) : Adds L N outer n 0 o₁ ((o₁.access site).note name.span symbol) :=
      .of_mention ((Grows.access o₁ site).trans (.note _ _ _)) rfl (.value List.mem_cons_self rfl rfl)
    have hadds := target_adds hL htarget (fun h => (ih₁ h).1) hsite
      ((SameScope.access _ _).trans (.note _ _ _)) rfl (fun h => (ih₂ h).1) hready
    refine ⟨hadds.1, fun e rest heq hdotted => ?_⟩
    obtain ⟨rfl, rfl⟩ := List.cons.inj heq
    exact hadds.2 hdotted
  | lambda henters hbody _ ih₁ ih₂ =>
    exact ⟨lambda_adds hL henters hbody (fun h => (ih₁ h).1) (fun h => (ih₂ h).1) hready,
      fun e rest heq hdotted => absurd rfl ((List.cons.inj heq).1 ▸ hdotted)⟩
  | letIn hearly hown hvalue hlate hbody _ ih₁ ih₂ ih₃ =>
    exact ⟨letIn_adds hL hearly hown hvalue (fun h => (ih₁ h).1) hlate hbody (fun h => (ih₂ h).1)
        (fun h => (ih₃ h).1) hready,
      fun e rest heq hdotted => absurd rfl ((List.cons.inj heq).1 ▸ hdotted)⟩

end ScriptAnalyzer

import ScriptAnalyzer.Proofs.Syntax.NestedSpans

/-!
In a text that is read without errors the children of an expression stand inside it one behind the other,
and so do the declarations of a module or a file.
-/

namespace ScriptAnalyzer

variable {m m' u v w : Nat}

/-- The parts of a binding stand inside it, and a function is bound to a name. -/
structure LetHead.Tidy (head : LetHead) : Prop where
  pattern : head.pattern.Sits head.span.start head.span.stop
  params : ∀ p ∈ head.params, p.Sits head.span.start head.span.stop
  returnType : ∀ t ∈ head.returnType, t.Sits head.span.start head.span.stop
  named : head.isFunction = true → head.pattern.isNamed = true

namespace Expr

/-- The dot, the names, the operator and the parentheses of an expression. -/
def marks : Expr → List Span
  | member _ _ dot name => dot :: name.toList.map (·.span)
  | call _ _ _ parens => [parens]
  | binary _ _ opSpan _ _ => [opSpan]
  | record _ fields => fields.map (·.1.span)
  | _ => []

/-- The patterns, types and bindings of an expression stand inside it, and arguments in parentheses inside
the parentheses. -/
def PartsTidy : Expr → Prop
  | call _ _ args parens => ∀ a ∈ args, a.span.Between parens.start parens.stop
  | lambda s params _ => ∀ p ∈ params, p.Sits s.start s.stop
  | letIn s head value _ => head.span.Between s.start s.stop ∧ head.Tidy ∧
      value.span.Between head.span.start head.span.stop
  | typed s _ t => t.Sits s.start s.stop
  | _ => True

/-- The children of the expression stand inside it one behind the other, and its other parts stand inside it
as well. -/
structure Tidy (e : Expr) : Prop where
  children : Span.Row e.span.start e.span.stop (e.children.map (·.span))
  marks : ∀ s ∈ e.marks, s.Between e.span.start e.span.stop
  parts : e.PartsTidy

/-- An expression that was read from `m` on, and not beyond `u`, with all below it. -/
structure Sits (m u : Nat) (e : Expr) : Prop where
  between : e.span.Between m u
  tidy : ∀ d ∈ e.preorder, d.Tidy

variable {e : Expr}

theorem Sits.weaken (h : e.Sits m u) (hm : m' ≤ m) (hu : u ≤ w) : e.Sits m' w :=
  ⟨h.between.weaken hm hu, h.tidy⟩

theorem Sits.of_children (hbetween : e.span.Between m u) (htidy : e.Tidy)
    (hchildren : ∀ c ∈ e.children, ∀ d ∈ c.preorder, d.Tidy) : e.Sits m u where
  between := hbetween
  tidy := by
    rw [preorder_eq]
    refine List.forall_mem_cons.mpr ⟨htidy, fun d hd => ?_⟩
    obtain ⟨c, hc, hd⟩ := List.mem_flatMap.mp hd
    exact hchildren c hc d hd

/-- The children and the marks of the expression are among spans that stand in it one behind the other. -/
theorem Sits.of_row {spans : List Span} (hbetween : e.span.Between m u)
    (hrow : Span.Row e.span.start e.span.stop spans) (hchildren : (e.children.map (·.span)).Sublist spans)
    (hmarks : e.marks ⊆ spans) (hparts : e.PartsTidy)
    (htidy : ∀ c ∈ e.children, ∀ d ∈ c.preorder, d.Tidy) : e.Sits m u :=
  .of_children hbetween ⟨hrow.sublist hchildren, fun s hs => hrow.between s (hmarks hs), hparts⟩ htidy

theorem sits_ident {n : Ident} (h : n.span.Between m u) : (ident n).Sits m u :=
  .of_row h .nil .slnil nofun trivial nofun

theorem sits_literal {s : Span} (h : s.Between m u) (value : Literal) : (literal s value).Sits m u :=
  .of_row h .nil .slnil nofun trivial nofun

theorem Sits.pair {a b : Expr} (hspan : e.span = a.span.merge b.span) (ha : a.Sits m u) (huv : u ≤ v)
    (hb : b.Sits v w) (hchildren : e.children = [a, b]) (hmarks : e.marks = []) (hparts : e.PartsTidy) :
    e.Sits m w := by
  have hlast : b.span ∈ [b.span].getLast? := rfl
  obtain ⟨hbetween, hrow⟩ := Span.Row.merge ha.between huv (.singleton hb.between) hlast
  rw [← hspan] at hbetween hrow
  refine .of_row hbetween hrow ?_ ?_ hparts ?_
  · rw [hchildren]
    exact List.Sublist.refl _
  · rw [hmarks]
    exact List.nil_subset _
  · rw [hchildren]
    exact List.forall_mem_cons.mpr ⟨ha.tidy, List.forall_mem_singleton.mpr hb.tidy⟩

end Expr

theorem Expr.values_sublist : (fields : List (Ident × Expr)) →
    (fields.map (·.2.span)).Sublist (fields.flatMap fun f => [f.1.span, f.2.span])
  | [] => .slnil
  | _ :: fields => .cons _ (.cons_cons _ (values_sublist fields))

theorem Expr.Sits.record {span : Span} {fields : List (Ident × Expr)} (hspan : span.Between m u)
    (hrow : Span.Row span.start span.stop (fields.flatMap fun f => [f.1.span, f.2.span]))
    (htidy : ∀ f ∈ fields, ∀ d ∈ f.2.preorder, d.Tidy) : (Expr.record span fields).Sits m u := by
  refine .of_row hspan hrow ?_ ?_ trivial fun c hc => ?_
  · rw [Expr.children, List.map_map]
    exact Expr.values_sublist fields
  · intro s hs
    obtain ⟨f, hf, rfl⟩ := List.mem_map.mp hs
    exact List.mem_flatMap.mpr ⟨f, hf, List.mem_cons_self⟩
  · obtain ⟨f, hf, rfl⟩ := List.mem_map.mp hc
    exact htidy f hf

/-- A call, whose parentheses stand behind the callee and hold the arguments. -/
theorem Expr.Sits.call {target : Expr} {opener close : Span} {args : List Expr} (htarget : target.Sits m u)
    (huv : u ≤ v) (hopener : opener.Between v opener.stop) (hclose : close.Between opener.stop close.stop)
    (hargs : Span.Row opener.stop close.stop (args.map (·.span))) (htidy : ∀ e ∈ args, ∀ d ∈ e.preorder, d.Tidy) :
    (Expr.call (target.span.merge (opener.merge close)) target args (opener.merge close)).Sits m close.stop := by
  have hparens : opener.merge close = ⟨opener.start, close.stop⟩ := hopener.merge_eq (Nat.le_refl _) hclose
  rw [hparens]
  have hinside : Span.Between v close.stop ⟨opener.start, close.stop⟩ :=
    ⟨hopener.after, Nat.le_trans hopener.ordered hclose.le, Nat.le_refl _⟩
  have hlast : (⟨opener.start, close.stop⟩ : Span) ∈ [(⟨opener.start, close.stop⟩ : Span)].getLast? := rfl
  obtain ⟨hspan, hrow⟩ := Span.Row.merge htarget.between huv (.singleton hinside) hlast
  have hfirst := hrow.between _ List.mem_cons_self
  have hsecond := hrow.between _ (List.mem_cons_of_mem _ (List.mem_singleton_self _))
  have happart : target.span.stop ≤ opener.start :=
    (List.pairwise_cons.mp hrow.apart).1 ⟨opener.start, close.stop⟩ (List.mem_singleton_self _)
  have hargs := hargs.weaken hopener.ordered (Nat.le_refl _)
  refine .of_children hspan ⟨?_, List.forall_mem_singleton.mpr hsecond, ?_⟩
    (List.forall_mem_cons.mpr ⟨htarget.tidy, htidy⟩)
  · exact .cons ⟨hfirst.after, hfirst.ordered, Nat.le_refl _⟩ happart hfirst.upTo
      (hargs.weaken (Nat.le_refl _) hsecond.upTo)
  · exact fun a ha => hargs.between _ (List.mem_map_of_mem ha)

/-- A binding that was read from `m` on, and not beyond `u`. -/
structure Binding.Sits (m u : Nat) (b : Binding) : Prop where
  between : b.span.Between m u
  head : b.toLetHead.Tidy
  body : b.body.Sits b.span.start b.span.stop

theorem Binding.Sits.letIn {b : Binding} {scope : Expr} (hb : b.Sits m u) (huv : u ≤ v)
    (hscope : scope.Sits v w) :
    (Expr.letIn (b.span.merge scope.span) b.toLetHead b.body scope).Sits m w := by
  have hlast : scope.span ∈ [scope.span].getLast? := rfl
  obtain ⟨hspan, hrow⟩ := Span.Row.merge hb.between huv (.singleton hscope.between) hlast
  have hhead := hrow.between _ List.mem_cons_self
  have hinside := hrow.between _ (List.mem_cons_of_mem _ (List.mem_singleton_self _))
  refine .of_children hspan ⟨?_, nofun, hhead, hb.head, hb.body.between⟩ ?_
  · have happart : b.span.stop ≤ scope.span.start :=
      (List.pairwise_cons.mp hrow.apart).1 _ (List.mem_singleton_self _)
    exact .pair (hb.body.between.weaken hhead.after (Nat.le_refl _)) happart hhead.upTo
      ⟨Nat.le_refl _, hinside.ordered, hinside.upTo⟩
  · exact List.forall_mem_cons.mpr ⟨hb.body.tidy, List.forall_mem_singleton.mpr hscope.tidy⟩

namespace Parser

open ParserState

variable {α β : Type} {P : α → Prop} {Q : β → Nat → Prop} {s : ParserState}

/-! Expressions -/

theorem missingExpr_nests {P : Expr → Nat → Prop} : Nests m missingExpr P :=
  .read fun _ => .reported (error_nests _ _) fun _ _ => .pure fun _ => trivial

theorem errorHere_nests : Nests m errorHere fun _ _ => True := .read fun _ => .pure fun _ => trivial

theorem behind_nests (token : Token) (htoken : token ≠ .eof) {what : String} {p : Parser Expr}
    {P : Expr → Nat → Prop} (hp : Nests m p P) : Nests m (behind token what p) P := by
  refine (expect_nests token htoken what).along fun found u => ?_
  cases found with
  | some span => exact hp.imp fun _ _ h _ _ => h
  | none => exact errorHere_nests.imp fun _ _ _ h _ => nomatch h

theorem literal?_nests (t : LaidToken) : Nests m (literal? t) fun _ _ => True := by
  unfold literal?
  split
  case h_1 =>
    refine .ite (fun _ => .pure fun _ => trivial) fun _ => ?_
    exact .reported (error_nests _ _) fun _ _ => .pure fun _ => trivial
  all_goals exact .pure fun _ => trivial

theorem atStatement_nests (column : Nat) : Nests m (atStatement column) fun _ _ => True :=
  .read fun _ => .pure fun _ => trivial

theorem sequenceItems_nests {close : Punct} {unclosed : SyntaxError} {item : Parser (Option α)}
    {spans : α → List Span}
    (hitem : ∀ m, Nests m item fun found u => ∀ a ∈ found, Span.Row m u (spans a) ∧ P a) (n m : Nat) :
    Nests m (sequenceItems close unclosed item n) fun r u =>
      Span.Row m u (r.1.flatMap spans) ∧ (∀ a ∈ r.1, P a) ∧ r.2 = u := by
  induction n generalizing m with
  | zero => exact .getBind fun s hs _ => .pure hs ⟨.nil, nofun, rfl⟩
  | succ n ih =>
    refine ended_nests (.punct close) nofun (fun span => rfl) (fun span _ => ⟨.nil, nofun, rfl⟩) ?_
    refine .read fun s => .ite (fun _ => ?_) fun _ => ?_
    · exact .reported (report_nests _) fun _ _ => .read fun _ => .pure fun _ => trivial
    · refine (eat_nests (.punct .semicolon) nofun).next fun found v hv => ?_
      cases found with
      | some span => exact (ih v).imp fun r w hr => ⟨hr.1.weaken hv (Nat.le_refl _), hr.2⟩
      | none =>
        refine setAnchor_nests.next fun _ x hx => (hitem x).bind fun found y z hyz hxz => ?_
        refine (ifStuck_nests fun _ => reject_nests.imp fun _ _ => False.elim).next fun _ z' hz' => ?_
        refine (ih z').map fun r w hr hfound hyw => ⟨?_, ?_, hr.2.2⟩
        · cases found with
          | none => exact hr.1.weaken (by omega) (Nat.le_refl _)
          | some a =>
            exact ((hfound a rfl).1.append (by omega) (by omega) hyw hr.1).weaken (by omega) (Nat.le_refl _)
        · exact List.forall_mem_append.mpr ⟨fun a ha => (hfound a (Option.mem_toList.mp ha)).2, hr.2.1⟩

theorem bracketed_nests {close : Punct} {delimiter : Char} {item : Parser (Option α)} {spans : α → List Span}
    (hs : Parted s.prevEnd s.rest) (hend : s.atEnd = false) (hm : m ≤ s.front)
    (hitem : ∀ m, Nests m item fun found u => ∀ a ∈ found, Span.Row m u (spans a) ∧ P a) (n : Nat) :
    NestsAt s (bracketed close delimiter item n) fun r u => Span.Between m u ⟨s.current.span.start, r.2⟩ ∧
      Span.Row s.current.span.start r.2 (r.1.flatMap spans) ∧ ∀ a ∈ r.1, P a := by
  refine bump_nests hs hend hm fun hopener => .read fun _ => nested_nests (withOffside_nests ?_)
  refine (sequenceItems_nests hitem n _).imp fun r u hr hu => ?_
  obtain ⟨hrow, hitems, hstop⟩ := hr
  rw [hstop]
  exact ⟨⟨hopener.after, Nat.le_trans hopener.ordered hu, Nat.le_refl _⟩,
    hrow.weaken hopener.ordered (Nat.le_refl _), hitems⟩

theorem bindingPattern_nests {p : Parser Pattern} {P : Pattern → Nat → Prop} (hp : Nests m p P) :
    Nests m (bindingPattern p) P := by
  refine .read fun s => ?_
  split
  · exact hp
  · exact hp
  · exact .reported (missing_nests _) fun _ _ => .read fun _ => .pure fun _ => trivial

theorem blockRest_nests {column : Nat} {b : Binding} {p : Parser Expr} {P : Expr → Nat → Prop}
    (hp : Nests m p P) : Nests m (blockRest column b p) P :=
  (atStatement_nests column).past fun _ => .ite (fun _ => hp) fun _ =>
    .reported (report_nests _) fun _ _ => errorHere_nests

theorem thenPart_nests {p : Parser Expr} {P : Expr → Nat → Prop} (hp : Nests m p P) :
    Nests m (thenPart p) P :=
  .read fun _ => .ite (fun _ => .reported (missing_nests _) fun _ _ => errorHere_nests) fun _ =>
    behind_nests (.keyword .thenKw) nofun hp

theorem elsePart_nests {p : Parser Expr} {P : Expr → Nat → Prop} (hp : Nests m p P) :
    Nests m (elsePart p) fun found u => ∀ e ∈ found, P e u :=
  .read fun _ => .ite (fun _ => skipped_nests.past fun _ => hp.map fun _ _ he _ hb =>
    Option.mem_some.mp hb ▸ he) fun _ => .pure fun _ => nofun

theorem rightOperand_nests {p q : Parser Expr} {P : Expr → Nat → Prop} (hp : Nests m p P) (hq : Nests m q P) :
    Nests m (rightOperand p q) P :=
  .read fun _ => .ite (fun _ => hp) fun _ => hq

theorem memberName?_nests : Nests m memberName? fun found u => ∀ n ∈ found, n.span.Between m u :=
  .read fun _ => .ite (fun _ => .pure fun _ => nofun) fun _ => ident?_nests

theorem parentheses_nests (opener : Span) (close : Option Span) :
    Nests m (parentheses opener close) fun parens _ => ∃ span ∈ close, parens = opener.merge span := by
  cases close with
  | some close => exact .pure fun _ => ⟨close, rfl, rfl⟩
  | none => exact .reported (report_nests _) fun _ _ => .read fun _ => .pure fun _ => trivial

structure ExprsNest (n : Nat) : Prop where
  /-- Without any depth no binding is read. -/
  binding : ∀ m s, 0 < n → Parted s.prevEnd s.rest → s.atEnd = false → m ≤ s.front →
    NestsAt s (binding n) fun b u => b.Sits m u
  letScope : ∀ m u v b, 0 < n → u ≤ v → Nests v (letScope n b) fun e w => b.Sits m u → u ≤ w → e.Sits m w
  body : ∀ m, Nests m (body n) fun e u => e.Sits m u
  statements : ∀ m column, Nests m (statements n column) fun e u => e.Sits m u
  expr : ∀ m, Nests m (expr n) fun e u => e.Sits m u
  tupleItems : ∀ m, Nests m (tupleItems n) fun items u =>
    Span.Row m u (items.map (·.span)) ∧ ∀ e ∈ items, ∀ d ∈ e.preorder, d.Tidy
  simpleExpr : ∀ m, Nests m (simpleExpr n) fun e u => e.Sits m u
  conditional : ∀ m s, Parted s.prevEnd s.rest → s.atEnd = false → m ≤ s.front →
    NestsAt s (conditional n) fun e u => e.Sits m u
  lambda : ∀ m s, Parted s.prevEnd s.rest → s.atEnd = false → m ≤ s.front →
    NestsAt s (lambda n) fun e u => e.Sits m u
  operand : ∀ m power, Nests m (operand n power) fun e u => e.Sits m u
  operations : ∀ m u v power lhs, m ≤ v → u ≤ v →
    Nests v (operations n power lhs) fun e w => lhs.Sits m u → u ≤ w → e.Sits m w
  unary : ∀ m, Nests m (unary n) fun e u => e.Sits m u
  arguments : ∀ m u v function, m ≤ v → u ≤ v →
    Nests v (arguments n function) fun e w => function.Sits m u → u ≤ w → e.Sits m w
  accessed : ∀ m, Nests m (accessed n) fun e u => e.Sits m u
  accesses : ∀ m u v target, m ≤ v → u ≤ v →
    Nests v (accesses n target) fun e w => target.Sits m u → u ≤ w → e.Sits m w
  callArguments : ∀ m, Nests m (callArguments n) fun r u => Span.Row m u (r.1.map (·.span)) ∧
    (∀ e ∈ r.1, ∀ d ∈ e.preorder, d.Tidy) ∧ ∀ close ∈ r.2, close.Between m u ∧ close.stop = u
  atom : ∀ m, Nests m (atom n) fun e u => e.Sits m u
  parenthesised : ∀ m s, Parted s.prevEnd s.rest → s.atEnd = false → m ≤ s.front →
    NestsAt s (parenthesised n) fun e u => e.Sits m u
  annotated : ∀ m, Nests m (annotated n) fun e u => e.Sits m u
  recordField : ∀ m, Nests m (recordField n) fun found u => ∀ f ∈ found,
    Span.Row m u [f.1.span, f.2.span] ∧ ∀ d ∈ f.2.preorder, d.Tidy

section

variable {n : Nat}

theorem binding_nests (ih : ExprsNest n) (hs : Parted s.prevEnd s.rest) (hend : s.atEnd = false)
    (hm : m ≤ s.front) : NestsAt s (binding (n + 1)) fun b u => b.Sits m u := by
  refine bump_nests hs hend hm fun hlet => (eat_nests (.keyword .recKw) nofun).past fun recToken => ?_
  refine (bindingPattern_nests ((patternsNest n).atomicPattern _)).along fun pattern u₁ => ?_
  refine (params_nests n _).along fun parameters u₂ => ?_
  refine (when_nests (error_nests _ _)).along fun _ u₃ => ?_
  refine (behind?_nests (.punct .colon) nofun ((typesNest n).type _)).along fun returnType u₄ => ?_
  refine (behind_nests (.operator .eq) nofun (ih.body _)).along fun value u₅ => ?_
  refine .getBind fun s' hs' _ => .pure hs' fun hvalue h₅ hreturn h₄ hnamed h₃ hparameters h₂ hpattern h₁ hw => ?_
  have hstart : s.current.span.start ≤ s.current.span.stop := hlet.ordered
  refine ⟨⟨hlet.after, Nat.le_trans hstart hw, Nat.le_refl _⟩, ⟨?_, fun p hp => ?_, fun t ht => ?_, ?_⟩, ?_⟩
  · exact hpattern.weaken hstart (by omega)
  · exact (hparameters p hp).weaken hstart (by omega)
  · exact (hreturn t ht).weaken hstart (by omega)
  · intro hfunction
    have hparams : parameters.isEmpty = false := by
      simpa [LetHead.isFunction] using hfunction
    simpa [hparams] using hnamed
  · exact hvalue.weaken hstart h₅

theorem letScope_nests (ih : ExprsNest n) (b : Binding) (huv : u ≤ v) :
    Nests v (letScope (n + 1) b) fun e w => b.Sits m u → u ≤ w → e.Sits m w :=
  skipped_nests.past fun _ => (ih.body v).map fun _ _ hscope hb _ => hb.letIn huv hscope

theorem body_nests (ih : ExprsNest n) (m : Nat) : Nests m (body (n + 1)) fun e u => e.Sits m u :=
  .read fun _ => .ite (fun _ => missingExpr_nests) fun _ =>
    .ite (fun _ => withOffside_nests (ih.statements m _)) fun _ => ih.expr m

/-- A binding, and what stands behind it, which is `scope` behind the keyword `in`. -/
theorem bound_nests (ih : ExprsNest n) {scope rest : Binding → Parser β} (hs : Parted s.prevEnd s.rest)
    (hlet : s.peek = .keyword .letKw) (hm : m ≤ s.front)
    (hscope : ∀ b u v, 0 < n → u ≤ v → Nests v (scope b) fun a w => b.Sits m u → u ≤ w → Q a w)
    (hrest : ∀ b u v, u ≤ v → Nests v (rest b) fun a w => b.Sits m u → u ≤ w → Q a w)
    (hnone : n = 0 → ∀ b, Nests m (rest b) Q) :
    NestsAt s (do
      let b ← binding n
      if (← get).peek = .keyword .inKw then scope b else rest b) Q := by
  rcases Nat.eq_zero_or_pos n with rfl | hn
  · simp only [NestsAt, binding, yields_bind, yields_pure, yields_get, hlet]
    exact hnone rfl _ s hs hm
  · refine (ih.binding m s hn hs (atEnd_of_peek hlet (by simp)) hm).bind hm fun b u v huv _ => ?_
    exact .read fun _ => .ite (fun _ => hscope b u v hn huv) fun _ => hrest b u v huv

theorem statements_nests (ih : ExprsNest n) (m column : Nat) :
    Nests m (statements (n + 1) column) fun e u => e.Sits m u := by
  intro s hs hm
  rw [NestsAt, statements, yields_bind, yields_get]
  split
  case isTrue hlet =>
    refine bound_nests ih hs hlet hm (fun b u v hn huv => ih.letScope m u v b hn huv) (fun b u v huv => ?_) ?_
    · refine skipStray_nests.past fun _ => ?_
      exact (blockRest_nests (ih.statements v column)).map fun scope w hscope hb _ => hb.letIn huv hscope
    · rintro rfl b
      exact skipStray_nests.past fun _ => .reported (blockRest_nests missingExpr_nests) fun _ _ =>
        .pure fun _ => trivial
  case isFalse =>
    suffices h : Nests m _ fun (e : Expr) u => e.Sits m u from h s hs hm
    refine .read fun s => setAnchor_nests.past fun _ => (ih.expr m).bind fun first u v huv _ => ?_
    refine (ifStuck_nests fun _ => skipped_nests).past fun _ => skipStray_nests.past fun _ => ?_
    refine (atStatement_nests column).past fun _ => .ite (fun _ => ?_) fun _ => ?_
    · refine (ih.statements v column).map fun second w hsecond hfirst _ => ?_
      exact .pair rfl hfirst huv hsecond rfl rfl trivial
    · exact .pure fun w hfirst huw => hfirst.weaken (Nat.le_refl _) huw

theorem expr_nests (ih : ExprsNest n) (m : Nat) : Nests m (expr (n + 1)) fun e u => e.Sits m u := by
  refine (ih.simpleExpr m).bind fun first u v huv _ => (ih.tupleItems v).bind fun more w _ _ _ => ?_
  split
  case h_1 last hlast =>
    refine .pure fun w' hmore hww' hfirst _ => ?_
    have hlast : last.span ∈ (more.map (·.span)).getLast? := by rw [List.getLast?_map, hlast]; rfl
    obtain ⟨hspan, hrow⟩ := Span.Row.merge hfirst.between huv hmore.1 hlast
    exact .of_row (hspan.weaken (Nat.le_refl _) hww') hrow (List.Sublist.refl _) (List.nil_subset _) trivial
      (List.forall_mem_cons.mpr ⟨hfirst.tidy, hmore.2⟩)
  case h_2 => exact .pure fun w' _ _ hfirst huw' => hfirst.weaken (Nat.le_refl _) huw'

theorem tupleItems_nests (ih : ExprsNest n) (m : Nat) :
    Nests m (tupleItems (n + 1)) fun items u =>
      Span.Row m u (items.map (·.span)) ∧ ∀ e ∈ items, ∀ d ∈ e.preorder, d.Tidy := by
  refine .read fun s => .ite (fun _ => skipped_nests.past fun _ => ?_) fun _ => .pure fun _ => ⟨.nil, nofun⟩
  refine (ih.simpleExpr m).bind fun item u v huv _ => (ih.tupleItems v).map fun more w hmore hitem huw => ?_
  exact ⟨hmore.1.cons hitem.between huv huw, List.forall_mem_cons.mpr ⟨hitem.tidy, hmore.2⟩⟩

theorem simpleExpr_nests (ih : ExprsNest n) (m : Nat) :
    Nests m (simpleExpr (n + 1)) fun e u => e.Sits m u := by
  intro s hs hm
  rw [NestsAt, simpleExpr, yields_bind, yields_get]
  have hrest (b : Binding) {v : Nat} {Q : Expr → Nat → Prop} : Nests v (do
      error .incompleteLet b.pattern.span
      return .letIn b.span b.toLetHead b.body (.error (.empty b.span.stop))) Q :=
    .reported (error_nests _ _) fun _ _ => .pure fun _ => trivial
  split
  case h_1 hlet =>
    exact bound_nests ih hs hlet hm (fun b u v hn huv => ih.letScope m u v b hn huv) (fun b _ _ _ => hrest b)
      fun _ b => hrest b
  case h_2 hif => exact ih.conditional m s hs (atEnd_of_peek hif (by simp)) hm
  case h_3 hfun => exact ih.lambda m s hs (atEnd_of_peek hfun (by simp)) hm
  case h_4 => exact ih.operand m 0 s hs hm

theorem conditional_nests (ih : ExprsNest n) (hs : Parted s.prevEnd s.rest) (hend : s.atEnd = false)
    (hm : m ≤ s.front) : NestsAt s (conditional (n + 1)) fun e u => e.Sits m u := by
  refine bump_nests hs hend hm fun hif => (ih.expr _).bind fun condition u₁ v₁ huv₁ _ => ?_
  refine (thenPart_nests (ih.body v₁)).bind fun thenBranch u₂ v₂ huv₂ _ => ?_
  refine (elsePart_nests (ih.body v₂)).along fun elseBranch u₃ => ?_
  refine .getBind fun s' hs' _ => .pure hs' fun helse h₃ hthen h₂ hcondition h₁ hw => ?_
  have hrow : Span.Row s.current.span.start s'.prevEnd
      (condition.span :: thenBranch.span :: elseBranch.toList.map (·.span)) := by
    refine .cons (hcondition.between.weaken hif.ordered (Nat.le_refl _)) huv₁ h₁ ?_
    refine .cons hthen.between huv₂ h₂ ?_
    cases elseBranch with
    | none => exact .nil
    | some branch => exact .singleton ((helse branch rfl).between.weaken (Nat.le_refl _) h₃)
  refine .of_row ⟨hif.after, Nat.le_trans hif.ordered hw, Nat.le_refl _⟩ hrow (List.Sublist.refl _)
    (List.nil_subset _) trivial ?_
  refine List.forall_mem_cons.mpr ⟨hcondition.tidy, List.forall_mem_cons.mpr ⟨hthen.tidy, fun e he => ?_⟩⟩
  exact (helse e (Option.mem_toList.mp he)).tidy

theorem lambda_nests (ih : ExprsNest n) (hs : Parted s.prevEnd s.rest) (hend : s.atEnd = false)
    (hm : m ≤ s.front) : NestsAt s (lambda (n + 1)) fun e u => e.Sits m u := by
  refine bump_nests hs hend hm fun hfun => (params_nests n _).along fun parameters u₁ => ?_
  refine (when_nests (missing_nests _)).along fun _ _ => ?_
  refine (behind_nests (.operator .arrow) nofun (ih.body _)).along fun value u₂ => ?_
  refine .getBind fun s' hs' _ => .pure hs' fun hvalue h₂ _ _ hparameters h₁ hw => ?_
  refine .of_row ⟨hfun.after, Nat.le_trans hfun.ordered hw, Nat.le_refl _⟩
    (.singleton (hvalue.between.weaken hfun.ordered h₂)) (List.Sublist.refl _) (List.nil_subset _) ?_
    (List.forall_mem_singleton.mpr hvalue.tidy)
  exact fun p hp => (hparameters p hp).weaken hfun.ordered (by omega)

theorem operand_nests (ih : ExprsNest n) (m power : Nat) :
    Nests m (operand (n + 1) power) fun e u => e.Sits m u :=
  (ih.unary m).bind fun lhs u v huv hmv => ih.operations m u v power lhs hmv huv

/-- What was read before stays what it is. -/
theorem pureExpr_nests {e : Expr} : Nests v (pure e) fun r w => e.Sits m u → u ≤ w → r.Sits m w :=
  .pure fun _ he huw => he.weaken (Nat.le_refl _) huw

theorem operations_nests (ih : ExprsNest n) {m u v : Nat} (power : Nat) (lhs : Expr) (hmv : m ≤ v) (huv : u ≤ v) :
    Nests v (operations (n + 1) power lhs) fun e w => lhs.Sits m u → u ≤ w → e.Sits m w := by
  refine .getBind fun s hs hv => ?_
  split
  case h_1 => exact pureExpr_nests s hs hv
  case h_2 op left right hop =>
    have hend : s.atEnd = false := atEnd_of_peek rfl fun heof => by rw [heof] at hop; cases hop
    refine .ite (fun _ => pureExpr_nests s hs hv) fun _ => bump_nests hs hend hv fun hoperator => ?_
    refine (rightOperand_nests (ih.simpleExpr _) (ih.operand _ _)).bind fun rhs x y hxy hy => ?_
    refine (ih.operations m x y power _ ?_ hxy).imp fun e w he hrhs hxw hw hlhs huw => he ?_ hxw
    · exact Nat.le_trans hmv (Nat.le_trans hoperator.le hy)
    · have hrow := Span.Row.pair hoperator (Nat.le_refl _) hrhs.between.le hrhs.between
      have hlast : rhs.span ∈ [s.current.span, rhs.span].getLast? := rfl
      obtain ⟨hspan, hrow⟩ := Span.Row.merge hlhs.between huv hrow hlast
      have hmid := hrow.between _ (List.mem_cons_of_mem _ List.mem_cons_self)
      rw [hmid.merge_inside]
      refine .of_row hspan hrow (.cons_cons _ (.cons _ (.cons_cons _ .slnil))) ?_ trivial
        (List.forall_mem_cons.mpr ⟨hlhs.tidy, List.forall_mem_singleton.mpr hrhs.tidy⟩)
      exact List.subset_cons_of_subset _ (List.cons_subset_cons _ (List.nil_subset _))

theorem unary_nests (ih : ExprsNest n) (m : Nat) : Nests m (unary (n + 1)) fun e u => e.Sits m u := by
  refine .getBind fun s hs hm => ?_
  refine .ite (fun hminus => ?_) fun _ => ?_
  · have hpeek : s.peek = .operator .minus := by
      simp only [Bool.and_eq_true, decide_eq_true_eq] at hminus
      exact hminus.1
    refine bump_nests hs (atEnd_of_peek hpeek nofun) hm fun htoken => ?_
    refine (ih.unary _).map fun inner w hinner _ => ?_
    have hlast : inner.span ∈ [inner.span].getLast? := rfl
    obtain ⟨hspan, hrow⟩ := Span.Row.merge htoken (Nat.le_refl _) (.singleton hinner.between) hlast
    exact .of_row hspan hrow (.cons _ (List.Sublist.refl _)) (List.nil_subset _) trivial
      (List.forall_mem_singleton.mpr hinner.tidy)
  · exact NestsAt.bind (ih.accessed m s hs hm) hm fun function u v huv hmv =>
      ih.arguments m u v function hmv huv

theorem arguments_nests (ih : ExprsNest n) {m u v : Nat} (function : Expr) (hmv : m ≤ v) (huv : u ≤ v) :
    Nests v (arguments (n + 1) function) fun e w => function.Sits m u → u ≤ w → e.Sits m w := by
  refine .read fun s => .ite (fun _ => ?_) fun _ => pureExpr_nests
  refine (ih.accessed v).bind fun argument x y hxy hvy => ?_
  refine (ih.arguments m x y _ (Nat.le_trans hmv hvy) hxy).imp fun e w he hargument hxw hfunction huw => ?_
  exact he (.pair rfl hfunction huv hargument rfl rfl trivial) hxw

theorem accessed_nests (ih : ExprsNest n) (m : Nat) : Nests m (accessed (n + 1)) fun e u => e.Sits m u :=
  (ih.atom m).bind fun target u v huv hmv => ih.accesses m u v target hmv huv

theorem accesses_nests (ih : ExprsNest n) {m u v : Nat} (target : Expr) (hmv : m ≤ v) (huv : u ≤ v) :
    Nests v (accesses (n + 1) target) fun e w => target.Sits m u → u ≤ w → e.Sits m w := by
  refine .getBind fun s hs hv => ?_
  split
  case h_1 hdot =>
    refine .ite (fun _ => pureExpr_nests s hs hv) fun _ => ?_
    refine bump_nests hs (atEnd_of_peek hdot nofun) hv fun hdot => ?_
    refine memberName?_nests.bind fun name x y hxy hy => ?_
    cases name with
    | none =>
      exact .reported (report_nests _) fun _ v =>
        (ih.accesses v v v _ (Nat.le_refl _) (Nat.le_refl _)).imp fun _ _ _ => trivial
    | some name =>
      refine (ih.accesses m x y _ (Nat.le_trans hmv (Nat.le_trans hdot.le hy)) hxy).imp ?_
      intro e w he hname hxw _ htarget _
      have hname := hname name rfl
      have hrow := Span.Row.pair hdot (Nat.le_refl _) hname.le hname
      have hlast : name.span ∈ [s.current.span, name.span].getLast? := rfl
      obtain ⟨hspan, hrow⟩ := Span.Row.merge htarget.between huv hrow hlast
      exact he (.of_row hspan hrow (.cons_cons _ (List.nil_sublist _)) (List.subset_cons_self _ _) trivial
        (List.forall_mem_singleton.mpr htarget.tidy)) hxw
  case h_2 hparen =>
    refine .ite (fun _ => pureExpr_nests s hs hv) fun _ => ?_
    refine bump_nests hs (atEnd_of_peek hparen nofun) hv fun hopener => ?_
    refine (nested_nests (ih.callArguments _)).bind fun r x y hxy hy => ?_
    refine (parentheses_nests s.current.span r.2).along fun parens _ => ?_
    refine (ih.accesses m x y _ (Nat.le_trans hmv (Nat.le_trans hopener.le hy)) hxy).imp ?_
    rintro e w he ⟨close, hclose, rfl⟩ - ⟨hargs, htidy, hclosed⟩ hxw - htarget -
    obtain ⟨hclose, rfl⟩ := hclosed close hclose
    exact he (htarget.call huv hopener hclose hargs htidy) hxw
  case h_3 => exact pureExpr_nests s hs hv

theorem callArguments_nests (ih : ExprsNest n) (m : Nat) :
    Nests m (callArguments (n + 1)) fun r u => Span.Row m u (r.1.map (·.span)) ∧
      (∀ e ∈ r.1, ∀ d ∈ e.preorder, d.Tidy) ∧ ∀ close ∈ r.2, close.Between m u ∧ close.stop = u := by
  refine ended_nests (.punct .rparen) (by simp) (fun span => rfl) (fun span hspan => ⟨.nil, by simp, ?_⟩) ?_
  · rintro _ ⟨⟩
    exact ⟨hspan, rfl⟩
  · refine .read fun s => .ite (fun _ => .pure fun _ => ⟨.nil, by simp, by simp⟩) fun _ => ?_
    refine (ih.simpleExpr m).bind fun arg u v huv hmv => ?_
    have hmore : Nests v (callArgumentsFrom n arg) fun r w => arg.Sits m u → u ≤ w →
        Span.Row m w (r.1.map (·.span)) ∧ (∀ e ∈ r.1, ∀ d ∈ e.preorder, d.Tidy) ∧
          ∀ close ∈ r.2, close.Between m w ∧ close.stop = w := by
      refine (ih.callArguments v).map fun r w hr harg huw => ?_
      obtain ⟨hargs, htidy, hclosed⟩ := hr
      refine ⟨.cons harg.between huv huw hargs, List.forall_mem_cons.mpr ⟨harg.tidy, htidy⟩, fun close hclose => ?_⟩
      exact ⟨(hclosed close hclose).1.weaken hmv (Nat.le_refl _), (hclosed close hclose).2⟩
    refine (eat_nests (.punct .comma) (by simp)).past fun comma => ?_
    cases comma with
    | some comma => exact hmore
    | none =>
      refine .read fun s' => .ite (fun _ => .pure fun w harg huw => ?_) fun _ => hmore
      exact ⟨.singleton (harg.between.weaken (Nat.le_refl _) huw), List.forall_mem_singleton.mpr harg.tidy, by simp⟩

theorem atom_nests (ih : ExprsNest n) (m : Nat) : Nests m (atom (n + 1)) fun e u => e.Sits m u := by
  refine .getBind fun s hs hm => .ite (fun _ => missingExpr_nests s hs hm) fun hinside => ?_
  dsimp only
  split
  case h_1 text hident =>
    refine skip_nests hs (atEnd_of_peek hident nofun) hm fun ht => .pure fun w hw => ?_
    exact Expr.sits_ident (ht.weaken (Nat.le_refl _) hw)
  case h_2 hparen => exact ih.parenthesised m s hs (atEnd_of_peek hparen nofun) hm
  case h_3 hbracket =>
    have hitem (m : Nat) : Nests m (some <$> expr n) fun found u => ∀ e ∈ found,
        Span.Row m u [e.span] ∧ ∀ d ∈ e.preorder, d.Tidy :=
      (ih.expr m).map fun e u he f hf => by
        obtain rfl := Option.mem_some.mp hf
        exact ⟨.singleton he.between, he.tidy⟩
    refine NestsAt.map (bracketed_nests hs (atEnd_of_peek hbracket nofun) hm hitem n) fun r u hr => ?_
    obtain ⟨hspan, hrow, htidy⟩ := hr
    exact .of_row hspan hrow (by rw [← List.map_eq_flatMap]; exact List.Sublist.refl _) (List.nil_subset _)
      trivial htidy
  case h_4 hbrace =>
    refine NestsAt.map (bracketed_nests hs (atEnd_of_peek hbrace nofun) hm ih.recordField n) fun r u hr => ?_
    obtain ⟨hspan, hrow, htidy⟩ := hr
    exact .record hspan hrow htidy
  case h_5 => exact ih.simpleExpr m s hs hm
  case h_6 => exact ih.simpleExpr m s hs hm
  case h_7 => exact ih.simpleExpr m s hs hm
  case h_8 =>
    have hend : s.atEnd = false := by
      cases hatEnd : s.atEnd with
      | true => exact absurd (by rw [ParserState.isOffside, if_pos hatEnd]) hinside
      | false => rfl
    rw [NestsAt, yields_bind]
    refine ((literal?_place s.current s).and (literal?_nests s.current s hs hm)).mono fun value s₁ h₁ => ?_
    obtain ⟨hplace, hgrows, -⟩ := h₁
    cases value with
    | some value =>
      have hrest : s₁.rest = s.rest := congrArg Place.rest hplace
      have hend₁ : s₁.atEnd = false := by rw [atEnd, hrest]; exact hend
      have hcurrent : s₁.current = s.current := by
        obtain ⟨ts, hts⟩ := rest_eq_cons hend
        exact current_of_head (by rw [hrest, hts]; rfl)
      refine ⟨hgrows.trans (.advance hgrows.parted), fun _ => Expr.sits_literal ?_ value⟩
      refine ⟨front_eq hend ▸ hm, Nat.le_of_lt (start_lt_stop hs hend), ?_⟩
      exact Nat.le_of_eq (hcurrent ▸ (prevEnd_advance hend₁).symm)
    | none =>
      have hreport : Nests s₁.front (do
          error .expectedExpression s.current.span
          return Expr.error (.empty s.current.span.start)) fun _ _ => False :=
        .reported (error_nests _ _) fun _ _ => .pure fun _ => trivial
      refine (hreport s₁ hgrows.parted (Nat.le_refl _)).mono fun _ s₂ h₂ => ⟨hgrows.trans h₂.1, fun hclean => ?_⟩
      exact (h₂.2 hclean).elim

theorem parenthesised_nests (ih : ExprsNest n) (hs : Parted s.prevEnd s.rest) (hend : s.atEnd = false)
    (hm : m ≤ s.front) : NestsAt s (parenthesised (n + 1)) fun e u => e.Sits m u := by
  refine bump_nests hs hend hm fun hopener => (eat_nests (.punct .rparen) nofun).along fun found u => ?_
  cases found with
  | some close =>
    refine .pure fun w hclose huw hw => Expr.sits_literal ?_ .unit
    exact (hopener.weaken (Nat.le_refl _) hw).merge ((hclose close rfl).weaken hopener.le huw)
  | none =>
    refine (nested_nests (ih.annotated _)).along fun inner x => ?_
    refine (closing_nests _ _).map fun stop w hstop hinner hxw _ _ hw => ?_
    rw [hstop]
    exact .of_row ⟨hopener.after, Nat.le_trans hopener.ordered hw, Nat.le_refl _⟩
      (.singleton (hinner.between.weaken hopener.ordered hxw)) (List.Sublist.refl _) (List.nil_subset _) trivial
      (List.forall_mem_singleton.mpr hinner.tidy)

theorem annotated_nests (ih : ExprsNest n) (m : Nat) : Nests m (annotated (n + 1)) fun e u => e.Sits m u := by
  refine (ih.expr m).bind fun inner u v huv _ => .read fun s => .ite (fun _ => ?_) fun _ => pureExpr_nests
  refine skipped_nests.past fun _ => ((typesNest n).type v).map fun t w ht hinner huw => ?_
  have hlast : t.span ∈ [t.span].getLast? := rfl
  obtain ⟨hspan, hrow⟩ := Span.Row.merge hinner.between huv (.singleton ht.between) hlast
  have htype := hrow.between _ (List.mem_cons_of_mem _ (List.mem_singleton_self _))
  exact .of_row hspan hrow (.cons_cons _ (List.nil_sublist _)) (List.nil_subset _) ⟨htype, ht.nested⟩
    (List.forall_mem_singleton.mpr hinner.tidy)

theorem recordField_nests (ih : ExprsNest n) (m : Nat) :
    Nests m (recordField (n + 1)) fun found u => ∀ f ∈ found,
      Span.Row m u [f.1.span, f.2.span] ∧ ∀ d ∈ f.2.preorder, d.Tidy := by
  refine ident?_nests.bind fun name u v huv hmv => ?_
  cases name with
  | none => exact .pure fun _ _ _ => nofun
  | some name =>
    refine (behind_nests (.operator .eq) nofun (ih.expr v)).map fun value w hvalue hname huw f hf => ?_
    obtain rfl := Option.mem_some.mp hf
    exact ⟨.pair (hname name rfl) huv huw hvalue.between, hvalue.tidy⟩

end

theorem exprsNest (n : Nat) : ExprsNest n := by
  induction n with
  | zero =>
    exact {
      binding := fun _ _ h => absurd h (Nat.lt_irrefl 0)
      letScope := fun _ _ _ _ h => absurd h (Nat.lt_irrefl 0)
      body := fun _ => missingExpr_nests
      statements := fun _ _ => missingExpr_nests
      expr := fun _ => missingExpr_nests
      tupleItems := fun _ => .pure fun _ => ⟨.nil, nofun⟩
      simpleExpr := fun _ => missingExpr_nests
      conditional := fun _ s hs _ hm => missingExpr_nests s hs hm
      lambda := fun _ s hs _ hm => missingExpr_nests s hs hm
      operand := fun _ _ => missingExpr_nests
      operations := fun _ _ _ _ _ _ _ => pureExpr_nests
      unary := fun _ => missingExpr_nests
      arguments := fun _ _ _ _ _ _ => pureExpr_nests
      accessed := fun _ => missingExpr_nests
      accesses := fun _ _ _ _ _ _ => pureExpr_nests
      callArguments := fun _ => .pure fun _ => ⟨.nil, nofun, nofun⟩
      atom := fun _ => missingExpr_nests
      parenthesised := fun _ s hs _ hm => missingExpr_nests s hs hm
      annotated := fun _ => missingExpr_nests
      recordField := fun _ => .pure fun _ => nofun }
  | succ n ih =>
    exact {
      binding := fun _ _ _ => binding_nests ih
      letScope := fun _ _ _ b _ => letScope_nests ih b
      body := body_nests ih
      statements := statements_nests ih
      expr := expr_nests ih
      tupleItems := tupleItems_nests ih
      simpleExpr := simpleExpr_nests ih
      conditional := fun _ _ => conditional_nests ih
      lambda := fun _ _ => lambda_nests ih
      operand := operand_nests ih
      operations := fun _ _ _ => operations_nests ih
      unary := unary_nests ih
      arguments := fun _ _ _ => arguments_nests ih
      accessed := accessed_nests ih
      accesses := fun _ _ _ => accesses_nests ih
      callArguments := callArguments_nests ih
      atom := atom_nests ih
      parenthesised := fun _ _ => parenthesised_nests ih
      annotated := annotated_nests ih
      recordField := recordField_nests ih }

end Parser

/-! Declarations -/

/-- A type definition that was read from `m` on, and not beyond `u`. -/
def TypeBody.Sits (m u : Nat) : TypeBody → Prop
  | record fields => ∀ f ∈ fields, f.1.span.Between m u ∧ f.2.Sits m u
  | abbreviation t => t.Sits m u

/-- Everything in the declaration lies inside what it is a part of, and the declarations of a module stand
one behind the other. -/
inductive Decl.Nested : Decl → Prop
  | binding {s : Span} {b : Binding} : b.Sits s.start s.stop → Nested (.binding s b)
  | open {s : Span} {path : LongIdent} : path.span.Between s.start s.stop → Nested (.open s path)
  | module {s : Span} {name : Ident} {ds : List Decl} : name.span.Between s.start s.stop →
    Span.Row s.start s.stop (ds.map (·.span)) → (∀ d ∈ ds, Nested d) → Nested (.module s name ds)
  | type {s : Span} {name : Ident} {body : TypeBody} : name.span.Between s.start s.stop →
    body.Sits s.start s.stop → Nested (.type s name body)
  | directive {s : Span} {d : Directive} : d.span.Between s.start s.stop → Nested (.directive s d)
  | expr {s : Span} {e : Expr} : e.Sits s.start s.stop → Nested (.expr s e)
  | error {s : Span} : Nested (.error s)

/-- Around what was read from `m` up to `u` the declaration is nested. -/
def Decl.Shaped (m u : Nat) (shape : Span → Decl) : Prop :=
  ∀ span : Span, span.start ≤ m → u ≤ span.stop → (shape span).span = span ∧ (shape span).Nested

theorem Decl.shaped_error : Shaped m u error := fun _ _ _ => ⟨rfl, .error⟩

theorem Expr.Sits.shaped {e : Expr} (h : e.Sits m u) (hu : u ≤ w) : Decl.Shaped m w (Decl.expr · e) :=
  fun _ hm hw => ⟨rfl, .expr (h.weaken hm (Nat.le_trans hu hw))⟩

theorem Binding.Sits.weaken {b : Binding} (h : b.Sits m u) (hm : m' ≤ m) (hu : u ≤ w) : b.Sits m' w :=
  ⟨h.between.weaken hm hu, h.head, h.body⟩

theorem TypeBody.Sits.weaken {body : TypeBody} (h : body.Sits m u) (hm : m' ≤ m) (hu : u ≤ w) :
    body.Sits m' w := by
  cases body with
  | record fields => exact fun f hf => ⟨(h f hf).1.weaken hm hu, (h f hf).2.weaken hm hu⟩
  | abbreviation t => exact TypeExpr.Sits.weaken h hm hu

namespace Parser

open ParserState

variable {α β : Type} {Q : β → Nat → Prop} {s : ParserState} {n : Nat}

theorem header_nests : Nests m header fun _ _ => True := by
  refine .read fun s => .ite (fun _ => .pure fun _ => trivial) fun _ => ?_
  refine .ite (fun _ => .pure fun _ => trivial) fun _ => skipped_nests.past fun _ => ?_
  refine longIdent?_nests.past fun name => ?_
  cases name with
  | some name => exact .pure fun _ => trivial
  | none => exact .reported unexpected_nests fun _ _ => .pure fun _ => trivial

theorem fieldDecls_nests (unclosed : SyntaxError) (n m : Nat) :
    Nests m (fieldDecls unclosed n) fun fields u => (TypeBody.record fields).Sits m u := by
  induction n generalizing m with
  | zero => exact .pure fun _ => nofun
  | succ n ih =>
    refine (eat_nests (.punct .rbrace) nofun).past fun found => ?_
    cases found with
    | some span => exact .pure fun _ => nofun
    | none =>
      refine .read fun s => .ite (fun _ => ?_) fun _ => (eat_nests (.punct .semicolon) nofun).past fun found => ?_
      · exact .reported (report_nests _) fun _ _ => .pure fun _ => trivial
      · cases found with
        | some span => exact ih m
        | none =>
          refine ident?_nests.along fun name u => ?_
          cases name with
          | none => exact .reported reject_nests fun _ v => (ih v).imp fun _ _ _ => trivial
          | some name =>
            refine (expect_nests (.punct .colon) nofun _).past fun _ => ?_
            refine ((typesNest n).type m).along fun t x => (ih m).map fun fields w hfields ht hxw hname huw => ?_
            exact List.forall_mem_cons.mpr ⟨⟨(hname name rfl).weaken (Nat.le_refl _) huw,
              ht.weaken (Nat.le_refl _) hxw⟩, hfields⟩

theorem typeDecl_nests (n m : Nat) : Nests m (typeDecl n) fun shape u => Decl.Shaped m u shape := by
  refine skipped_nests.past fun _ => ident?_nests.along fun name u => ?_
  cases name with
  | none => exact .reported (missing_nests _) fun _ _ => .pure fun _ => trivial
  | some name =>
    have htype {body : TypeBody} {w : Nat} (hbody : body.Sits m w) (hname : ∀ n ∈ some name, n.span.Between m u)
        (huw : u ≤ w) : Decl.Shaped m w (Decl.type · name body) :=
      fun span hm hw => ⟨rfl, .type ((hname name rfl).weaken hm (Nat.le_trans huw hw)) (hbody.weaken hm hw)⟩
    refine (expect_nests (.operator .eq) nofun _).past fun found => ?_
    cases found with
    | none => exact .pure fun _ _ _ => Decl.shaped_error
    | some span =>
      refine .getBind fun s hs hm => .ite (fun hbrace => ?_) fun _ => ?_
      · refine bump_nests hs (atEnd_of_peek hbrace nofun) hm fun hopener => .read fun s => ?_
        refine Nests.map (nested_nests (withOffside_nests (fieldDecls_nests _ n _))) ?_
        intro fields w hfields _ hname huw
        exact htype (TypeBody.Sits.weaken hfields hopener.le (Nat.le_refl _)) hname huw
      · exact NestsAt.map ((typesNest n).type m s hs hm) fun t w ht hname huw => htype ht hname huw

theorem directiveArgs_nests (invalid : SyntaxError.Cause) (n m : Nat) :
    Nests m (directiveArgs invalid n) fun _ _ => True := by
  induction n with
  | zero => exact .pure fun _ => trivial
  | succ n ih =>
    refine .read fun s => .ite (fun _ => .pure fun _ => trivial) fun _ => ?_
    refine (when_nests (error_nests _ _)).past fun _ => skipped_nests.past fun _ => ?_
    exact ih.map fun _ _ _ => trivial

theorem directive_nests {raw : String} (n : Nat) (hs : Parted s.prevEnd s.rest)
    (hraw : s.peek = .directive raw) (hm : m ≤ s.front) :
    NestsAt s (directive raw n) fun d u => d.span.Between m u := by
  refine bump_nests hs (atEnd_of_peek hraw nofun) hm fun ht => ?_
  refine (directiveArgs_nests _ n _).past fun args => .read fun _ => ?_
  refine (when_nests (report_nests _)).past fun _ => .getBind fun s' hs' _ => .pure hs' fun hw => ?_
  exact ⟨ht.after, Nat.le_trans ht.ordered hw, Nat.le_refl _⟩

structure DeclsNest (n : Nat) : Prop where
  decls : ∀ m column, Nests m (decls n column) fun ds u =>
    Span.Row m u (ds.map (·.span)) ∧ ∀ d ∈ ds, d.Nested
  /-- Without a token there is no declaration. -/
  decl : ∀ column s, Parted s.prevEnd s.rest → (decl n column).Yields s fun d s' => s.Grows s' ∧
    (s'.errors = [] → s'.rest.length < s.rest.length → d.span.Between s.front s'.prevEnd ∧ d.Nested)
  moduleDecl : ∀ m column, Nests m (moduleDecl n column) fun shape u => Decl.Shaped m u shape

theorem moduleDecl_nests (ih : DeclsNest n) (m column : Nat) :
    Nests m (moduleDecl (n + 1) column) fun shape u => Decl.Shaped m u shape := by
  refine skipped_nests.past fun _ => ident?_nests.along fun name u => ?_
  cases name with
  | none => exact .reported (missing_nests _) fun _ _ => .pure fun _ => trivial
  | some name =>
    refine (expect_nests (.operator .eq) nofun _).past fun found => ?_
    cases found with
    | none => exact .pure fun _ _ _ => Decl.shaped_error
    | some span =>
      refine .read fun s => .ite (fun _ => ?_) fun _ => ?_
      · exact .reported (error_nests _ _) fun _ _ => .pure fun _ => trivial
      · refine (withOffside_nests (ih.decls m _)).map fun ds w hds hname huw span hm hw => ⟨rfl, ?_⟩
        exact .module ((hname name rfl).weaken hm (Nat.le_trans huw hw)) (hds.1.weaken hm hw) hds.2

theorem decls_nests (ih : DeclsNest n) (m column : Nat) :
    Nests m (decls (n + 1) column) fun ds u => Span.Row m u (ds.map (·.span)) ∧ ∀ d ∈ ds, d.Nested := by
  refine .getBind fun s hs hm => .ite (fun _ => .pure hs ⟨.nil, nofun⟩) fun _ => .ite (fun _ => ?_) fun _ => ?_
  · suffices h : Nests m _ _ from h s hs hm
    refine .reported (error_nests _ _) fun _ _ => skipped_nests.past fun _ => (skipWhile_nests _).past fun _ => ?_
    exact (ih.decls _ column).imp fun _ _ _ => trivial
  · let s₀ : ParserState := { s with anchor := some s.rest.length }
    rw [NestsAt, setAnchor, yields_bind, yields_modify, yields_bind]
    refine (ih.decl column s₀ hs).mono fun d s₁ h₁ => ?_
    obtain ⟨hgrows, hd⟩ := h₁
    have hgrows : s.Grows s₁ := ⟨hgrows.reads, hgrows.errors⟩
    have hparted := hgrows.parted
    have hrest (v : Nat) : Nests v (do
        when (!(← get).current.lineStart) unexpected
        synchronize column
        let ds ← decls n column
        return d :: ds) fun ds w => ∃ more, ds = d :: more ∧ Span.Row v w (more.map (·.span)) ∧
          ∀ d ∈ more, d.Nested := by
      refine .read fun s => (when_nests unexpected_nests).past fun _ => (skipWhile_nests _).past fun _ => ?_
      exact (ih.decls v column).map fun more _ hmore => ⟨more, rfl, hmore⟩
    rw [yields_bind, yields_ifStuck]
    split
    case isTrue =>
      refine (reject_nests s₁ hparted (Nat.le_refl _)).mono fun _ s₂ h₂ => ?_
      refine (hrest s₂.front s₂ h₂.1.parted (Nat.le_refl _)).mono fun ds s' h' => ?_
      exact ⟨hgrows.trans (h₂.1.trans h'.1), fun hclean => (h₂.2 (h'.1.clean hclean)).elim⟩
    case isFalse hread =>
      have hlt : s₁.rest.length < s.rest.length := Nat.lt_of_le_of_ne hgrows.reads.length_le hread
      refine (hrest s₁.front s₁ hparted (Nat.le_refl _)).mono fun ds s' h' => ⟨hgrows.trans h'.1, fun hclean => ?_⟩
      obtain ⟨more, rfl, hrow, hmore⟩ := h'.2 hclean
      obtain ⟨hbetween, hnested⟩ := hd (h'.1.clean hclean) hlt
      exact ⟨.cons (hbetween.weaken hm (Nat.le_refl _)) (stop_le_front hparted) h'.1.stop_le hrow,
        List.forall_mem_cons.mpr ⟨hnested, hmore⟩⟩

theorem decl_nests (ih : DeclsNest n) (column : Nat) (hs : Parted s.prevEnd s.rest) :
    (decl (n + 1) column).Yields s fun d s' => s.Grows s' ∧
      (s'.errors = [] → s'.rest.length < s.rest.length → d.span.Between s.front s'.prevEnd ∧ d.Nested) := by
  have exprs := exprsNest n
  simp only [decl]
  rw [yields_bind, yields_get, yields_bind]
  refine Yields.mono (Q := fun shape s' => s.Grows s' ∧ (s'.errors = [] → s'.rest.length < s.rest.length →
    Decl.Shaped s.front s'.prevEnd shape)) ?_ fun shape s₁ h₁ => ⟨h₁.1, fun hclean hread => ?_⟩
  · have hread {p : Parser (Span → Decl)} (hp : NestsAt s p fun shape u => Decl.Shaped s.front u shape) :
        p.Yields s fun shape s' => s.Grows s' ∧ (s'.errors = [] → s'.rest.length < s.rest.length →
          Decl.Shaped s.front s'.prevEnd shape) :=
      hp.mono fun _ _ h => ⟨h.1, fun hclean _ => h.2 hclean⟩
    split
    case h_1 hlet =>
      cases n with
      | zero =>
        simp only [binding, yields_bind, yields_pure, yields_get, hlet]
        exact ⟨.refl hs, fun _ hlt => absurd hlt (Nat.lt_irrefl _)⟩
      | succ n =>
        refine hread (bound_nests exprs hs hlet (Nat.le_refl _) (fun b u v hn huv => ?_) (fun b u v huv => ?_)
          (by simp))
        · exact (exprs.letScope _ u v b hn huv).map fun e w he hb huw => (he hb huw).shaped (Nat.le_refl _)
        · exact .pure fun w hb huw span hm hw => ⟨rfl, .binding (hb.weaken hm (Nat.le_trans huw hw))⟩
    case h_2 =>
      suffices h : Nests s.front _ fun (shape : Span → Decl) u => Decl.Shaped s.front u shape from
        hread (h s hs (Nat.le_refl _))
      refine skipped_nests.past fun _ => longIdent?_nests.along fun path u => ?_
      cases path with
      | some path =>
        refine .pure fun w hpath huw span hm hw => ⟨rfl, .open ?_⟩
        exact (hpath path rfl).weaken hm (Nat.le_trans huw hw)
      | none => exact .reported (missing_nests _) fun _ _ => .pure fun _ => trivial
    case h_3 => exact hread (ih.moduleDecl s.front column s hs (Nat.le_refl _))
    case h_4 => exact hread (typeDecl_nests n s.front s hs (Nat.le_refl _))
    case h_5 raw hraw =>
      refine hread (NestsAt.map (directive_nests _ hs hraw (Nat.le_refl _)) fun d u hd span hm hw => ⟨rfl, ?_⟩)
      exact .directive (hd.weaken hm hw)
    case h_6 =>
      suffices h : Nests s.front _ fun (shape : Span → Decl) u => Decl.Shaped s.front u shape from
        hread (h s hs (Nat.le_refl _))
      exact skipped_nests.past fun _ => (exprs.body _).map fun e u he => he.shaped (Nat.le_refl _)
    case h_7 =>
      suffices h : Nests s.front _ fun (shape : Span → Decl) u => Decl.Shaped s.front u shape from
        hread (h s hs (Nat.le_refl _))
      exact (exprs.expr _).along fun e u => skipStray_nests.past fun _ => .pure fun w he huw => he.shaped huw
  -- a declaration that was read starts in front and stops where its last token does
  · have hend : s.atEnd = false := by
      cases hatEnd : s.atEnd with
      | true => rw [List.isEmpty_iff.mp hatEnd] at hread; exact absurd hread (Nat.not_lt_zero _)
      | false => rfl
    have hstart := front_eq hend
    have hstop : s.front ≤ s₁.prevEnd := h₁.1.reads.front_le_stop hread
    have hmax : max s₁.prevEnd s.current.span.start = s₁.prevEnd := Nat.max_eq_left (hstart ▸ hstop)
    obtain ⟨hspan, hnested⟩ := h₁.2 hclean hread ⟨s.current.span.start, max s₁.prevEnd s.current.span.start⟩
      (Nat.le_of_eq hstart.symm) (Nat.le_max_left _ _)
    refine ⟨?_, hnested⟩
    change Span.Between s.front s₁.prevEnd (shape ⟨s.current.span.start, max s₁.prevEnd s.current.span.start⟩).span
    rw [hspan, hmax, ← hstart]
    exact ⟨Nat.le_refl _, hstop, Nat.le_refl _⟩

theorem declsNest (n : Nat) : DeclsNest n := by
  induction n with
  | zero =>
    exact ⟨fun _ _ => .pure fun _ => ⟨.nil, nofun⟩,
      fun _ _ hs => ⟨.refl hs, fun _ hlt => absurd hlt (Nat.lt_irrefl _)⟩,
      fun _ _ => .pure fun _ => Decl.shaped_error⟩
  | succ n ih => exact ⟨decls_nests ih, fun column s => decl_nests ih column, moduleDecl_nests ih⟩

theorem file_nests (n m : Nat) : Nests m (file n) fun r u =>
    Span.Row m u (r.2.map (·.span)) ∧ ∀ d ∈ r.2, d.Nested :=
  header_nests.past fun _ => .read fun _ => (withOffside_nests ((declsNest n).decls m _)).map fun _ _ h => h

end Parser

namespace SyntaxFile

variable (path : Path) (text : Text) (kind : SourceKind) (defines : List String)

theorem clean_nests (h : (parse path text kind defines).errors = []) :
    (∃ u, Span.Row 0 u ((parse path text kind defines).decls.map (·.span))) ∧
      ∀ d ∈ (parse path text kind defines).decls, d.Nested := by
  let s := start text kind defines
  have hparted : Parted s.prevEnd s.rest := significantTokens_parted text defines
  have hfile := Parser.file_nests (depthBound s.rest.length) 0 s hparted (Nat.zero_le _)
  obtain ⟨hrow, hnested⟩ := hfile.2 (List.eq_nil_of_length_eq_zero
    ((List.length_mergeSort _).symm.trans (congrArg List.length h)))
  exact ⟨⟨_, hrow⟩, hnested⟩

/-- In a text that is read without errors the declarations stand one behind the other, and everything in them
lies inside what it is a part of. -/
theorem parse_nested (h : (parse path text kind defines).errors = []) :
    ((parse path text kind defines).decls.map (·.span)).Pairwise (fun s t => s.stop ≤ t.start) ∧
      ∀ d ∈ (parse path text kind defines).decls, d.Nested := by
  obtain ⟨⟨u, hrow⟩, hnested⟩ := clean_nests path text kind defines h
  exact ⟨hrow.apart, hnested⟩

theorem parse_nested_two_bindings :
    (parse ⟨"a.glx"⟩ "let f (x : int, y) = x + y\nlet z = f(1, 2).w".toList .script []).errors = [] ∧
      ∀ d ∈ (parse ⟨"a.glx"⟩ "let f (x : int, y) = x + y\nlet z = f(1, 2).w".toList .script []).decls, d.Nested :=
  ⟨by decide +kernel,
    (parse_nested ⟨"a.glx"⟩ "let f (x : int, y) = x + y\nlet z = f(1, 2).w".toList .script []
      (by decide +kernel)).2⟩

end SyntaxFile

end ScriptAnalyzer

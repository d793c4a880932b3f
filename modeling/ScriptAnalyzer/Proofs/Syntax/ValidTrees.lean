import ScriptAnalyzer.Proofs.Syntax.ValidSpans
import ScriptAnalyzer.Proofs.Token.Spelling

/-!
Every span of a tree and of a syntax error is a part of the text, whatever is wrong with the text.
-/

namespace ScriptAnalyzer

variable {g : Sites} {m : Nat}

namespace Expr

/-- A record starts with its brace. -/
def Braced (g : Sites) : Expr → Prop
  | record s _ => g.IsBrace s.start
  | _ => True

structure Fits (g : Sites) (e : Expr) : Prop where
  spans : ∀ s ∈ e.spans, s.Fits g
  braced : ∀ d ∈ e.preorder, d.Braced g

variable {e : Expr}

theorem Fits.span (h : e.Fits g) : e.span.Fits g := by
  refine h.spans _ ?_
  rw [Expr.spans, preorder_eq, List.flatMap_cons]
  exact List.mem_append_left _ e.span_mem_ownSpans

theorem Fits.of_children (hown : ∀ s ∈ e.ownSpans, s.Fits g) (hbraced : e.Braced g)
    (hchildren : ∀ c ∈ e.children, c.Fits g) : e.Fits g where
  spans := by
    rw [Expr.spans, preorder_eq, List.flatMap_cons, List.flatMap_assoc]
    refine List.forall_mem_append.mpr ⟨hown, fun s hs => ?_⟩
    obtain ⟨c, hc, hs⟩ := List.mem_flatMap.mp hs
    exact (hchildren c hc).spans s hs
  braced := by
    rw [preorder_eq]
    refine List.forall_mem_cons.mpr ⟨hbraced, fun d hd => ?_⟩
    obtain ⟨c, hc, hd⟩ := List.mem_flatMap.mp hd
    exact (hchildren c hc).braced d hd

theorem fits_error {n : Nat} (h : g.IsEdge n) : (error (.empty n)).Fits g :=
  .of_children (List.forall_mem_singleton.mpr (.empty h)) trivial nofun

theorem fits_literal {s : Span} (h : s.Fits g) (value : Literal) : (literal s value).Fits g :=
  .of_children (List.forall_mem_singleton.mpr h) trivial nofun

end Expr

structure Binding.Fits (g : Sites) (b : Binding) : Prop where
  head : ∀ s ∈ b.toLetHead.spans, s.Fits g
  body : b.body.Fits g

theorem Binding.Fits.span {b : Binding} (h : b.Fits g) : b.span.Fits g := h.head _ List.mem_cons_self

theorem Binding.Fits.pattern {b : Binding} (h : b.Fits g) : b.pattern.Fits g :=
  (List.forall_mem_append.mp (List.forall_mem_append.mp (List.forall_mem_cons.mp h.head).2).1).1

theorem Pattern.Fits.name {p : Pattern} (h : p.Fits g) {n : Ident} (hn : p.name? = some n) :
    n.span.Fits g := by
  unfold Pattern.name? at hn
  split at hn
  case h_1 =>
    obtain rfl := Option.some.inj hn
    exact h _ (by simp [Pattern.spans])
  case h_2 =>
    obtain rfl := Option.some.inj hn
    exact h _ (by simp [Pattern.spans])
  case h_3 => cases hn

theorem Binding.Fits.letIn {b : Binding} (h : b.Fits g) {span : Span} {scope : Expr} (hspan : span.Fits g)
    (hscope : scope.Fits g) : (Expr.letIn span b.toLetHead b.body scope).Fits g :=
  .of_children (List.forall_mem_cons.mpr ⟨hspan, h.head⟩) trivial
    (List.forall_mem_cons.mpr ⟨h.body, List.forall_mem_singleton.mpr hscope⟩)

namespace Parser

open ParserState

variable {α β : Type} {P : α → Prop} {Q : β → Prop} {s : ParserState}

/-! Expressions -/

theorem errorHere_keeps : errorHere.Keeps g m (·.Fits g) :=
  .getBind fun _ hs => .pure (Expr.fits_error hs.prevEnd)

theorem missingExpr_keeps : missingExpr.Keeps g m (·.Fits g) :=
  .getBind fun _ hs => (error_keeps _ (.empty hs.prevEnd)).next fun _ => .pure (Expr.fits_error hs.prevEnd)

theorem behind_keeps (token : Token) (htoken : token ≠ .eof) {what : String} {p : Parser Expr}
    (hp : p.Keeps g m (·.Fits g)) : (behind token what p).Keeps g m (·.Fits g) := by
  refine (expect_keeps token htoken what).next fun found => ?_
  cases found with
  | some span => exact hp
  | none => exact errorHere_keeps

theorem literal?_keeps {t : LaidToken} (ht : t.span.Fits g) : (literal? t).Keeps g m fun _ => True := by
  unfold literal?
  split
  case h_1 => exact .ite (fun _ => .pure trivial) fun _ => (error_keeps _ ht).next fun _ => .pure trivial
  all_goals exact .pure trivial

theorem sequenceItems_keeps {close : Punct} {unclosed : SyntaxError} {item : Parser (Option α)}
    (hunclosed : unclosed.span.Fits g) (hitem : item.Keeps g m fun found => ∀ a ∈ found, P a) (n : Nat) :
    (sequenceItems close unclosed item n).Keeps g m fun r =>
      (∀ a ∈ r.1, P a) ∧ g.IsEdge r.2 ∧ m ≤ r.2 := by
  induction n with
  | zero => exact .getBind fun _ hs => .pure ⟨nofun, hs.prevEnd, hs.behind⟩
  | succ n ih =>
    refine (eat_keeps (.punct close) nofun).bind fun found hfound => ?_
    cases found with
    | some span =>
      obtain ⟨hspan, hle⟩ := hfound span rfl
      exact .pure ⟨nofun, hspan.stop, Nat.le_trans hle hspan.ordered⟩
    | none =>
      refine .getBind fun s hs => .ite (fun _ => ?_) fun _ => ?_
      · exact (report_keeps hunclosed).next fun _ => .pure ⟨nofun, hs.prevEnd, hs.behind⟩
      · refine (eat_keeps (.punct .semicolon) nofun).next fun found => ?_
        cases found with
        | some span => exact ih
        | none =>
          refine setAnchor_keeps.next fun _ => hitem.bind fun found hfound => ?_
          refine (ifStuck_keeps reject_keeps).next fun _ => ih.bind fun r hr => .pure ⟨?_, hr.2⟩
          exact List.forall_mem_append.mpr ⟨fun a ha => hfound a (Option.mem_toList.mp ha), hr.1⟩

theorem bracketed_keeps {close : Punct} {delimiter : Char} {item : Parser (Option α)} (hs : s.Fits g m)
    (hend : s.atEnd = false) (hitem : ∀ m, item.Keeps g m fun found => ∀ a ∈ found, P a) (n : Nat) :
    (bracketed close delimiter item n).Yields s fun r s' => s'.Fits g m ∧
      (∀ a ∈ r.1, P a) ∧ Span.Fits g ⟨s.current.span.start, r.2⟩ :=
  bumped hs hend fun hopener => .getBind fun _ _ => nested_keeps <| withOffside_keeps <|
    (sequenceItems_keeps hopener.span (hitem _) n).imp fun _ hr =>
      ⟨hr.1, Nat.le_trans hopener.span.ordered hr.2.2, hopener.span.start, hr.2.1⟩

theorem bindingPattern_keeps {p : Parser Pattern} (hp : p.Keeps g m (·.Fits g)) :
    (bindingPattern p).Keeps g m (·.Fits g) := by
  refine .getBind fun s hs => ?_
  split
  · exact hp
  · exact hp
  · exact (missing_keeps _).next fun _ => .getBind fun _ hs =>
      .pure (List.forall_mem_singleton.mpr (.empty hs.prevEnd))

theorem blockRest_keeps (column : Nat) {b : Binding} (hb : b.Fits g) {p : Parser Expr}
    (hp : p.Keeps g m (·.Fits g)) : (blockRest column b p).Keeps g m (·.Fits g) := by
  have hplace : ((b.name?.map (·.span)).getD b.pattern.span).Fits g := by
    cases hname : b.name? with
    | none => exact hb.pattern.span
    | some n => exact hb.pattern.name hname
  refine Keeps.next (P := fun _ => True) (.getBind fun _ _ => .pure trivial) fun _ => ?_
  exact .ite (fun _ => hp) fun _ => (report_keeps hplace).next fun _ => errorHere_keeps

theorem thenPart_keeps {p : Parser Expr} (hp : p.Keeps g m (·.Fits g)) :
    (thenPart p).Keeps g m (·.Fits g) :=
  .getBind fun _ _ => .ite (fun _ => (missing_keeps _).next fun _ => errorHere_keeps) fun _ =>
    behind_keeps (.keyword .thenKw) nofun hp

theorem elsePart_keeps {p : Parser Expr} (hp : p.Keeps g m (·.Fits g)) :
    (elsePart p).Keeps g m fun found => ∀ e ∈ found, e.Fits g :=
  .getBind fun _ _ => .ite (fun _ => skip_keeps.next fun _ => hp.bind fun _ he =>
    .pure fun _ hb => Option.mem_some.mp hb ▸ he) fun _ => .pure nofun

theorem rightOperand_keeps {p q : Parser Expr} (hp : p.Keeps g m (·.Fits g)) (hq : q.Keeps g m (·.Fits g)) :
    (rightOperand p q).Keeps g m (·.Fits g) :=
  .getBind fun _ _ => .ite (fun _ => hp) fun _ => hq

theorem memberName?_keeps : memberName?.Keeps g m fun found => ∀ n ∈ found, n.span.Fits g :=
  .getBind fun _ _ => .ite (fun _ => .pure nofun) fun _ => ident?_keeps

theorem parentheses_keeps {opener : Span} (hopener : opener.Fits g) (hm : opener.stop ≤ m)
    {close : Option Span} (hclose : ∀ span ∈ close, span.Fits g) :
    (parentheses opener close).Keeps g m (·.Fits g) := by
  cases close with
  | some close => exact .pure (hopener.merge (hclose close rfl))
  | none =>
    refine (report_keeps hopener).next fun _ => .getBind fun s hs => .pure ?_
    exact ⟨Nat.le_trans hopener.ordered (Nat.le_trans hm hs.behind), hopener.start, hs.prevEnd⟩

structure ExprsKeep (g : Sites) (n : Nat) : Prop where
  binding : ∀ m s, s.Fits g m → s.atEnd = false →
    (binding n).Yields s fun b s' => s'.Fits g m ∧ b.Fits g
  letScope : ∀ m b, b.Fits g → (letScope n b).Keeps g m (·.Fits g)
  body : ∀ m, (body n).Keeps g m (·.Fits g)
  statements : ∀ m column, (statements n column).Keeps g m (·.Fits g)
  expr : ∀ m, (expr n).Keeps g m (·.Fits g)
  tupleItems : ∀ m, (tupleItems n).Keeps g m fun items => ∀ e ∈ items, e.Fits g
  simpleExpr : ∀ m, (simpleExpr n).Keeps g m (·.Fits g)
  conditional : ∀ m s, s.Fits g m → s.atEnd = false →
    (conditional n).Yields s fun e s' => s'.Fits g m ∧ e.Fits g
  lambda : ∀ m s, s.Fits g m → s.atEnd = false →
    (lambda n).Yields s fun e s' => s'.Fits g m ∧ e.Fits g
  operand : ∀ m power, (operand n power).Keeps g m (·.Fits g)
  operations : ∀ m power lhs, lhs.Fits g → (operations n power lhs).Keeps g m (·.Fits g)
  unary : ∀ m, (unary n).Keeps g m (·.Fits g)
  arguments : ∀ m function, function.Fits g → (arguments n function).Keeps g m (·.Fits g)
  accessed : ∀ m, (accessed n).Keeps g m (·.Fits g)
  accesses : ∀ m target, target.Fits g → (accesses n target).Keeps g m (·.Fits g)
  callArguments : ∀ m, (callArguments n).Keeps g m fun r =>
    (∀ e ∈ r.1, e.Fits g) ∧ ∀ close ∈ r.2, close.Fits g
  atom : ∀ m, (atom n).Keeps g m (·.Fits g)
  parenthesised : ∀ m s, s.Fits g m → s.atEnd = false →
    (parenthesised n).Yields s fun e s' => s'.Fits g m ∧ e.Fits g
  annotated : ∀ m, (annotated n).Keeps g m (·.Fits g)
  recordField : ∀ m, (recordField n).Keeps g m fun found => ∀ f ∈ found, f.1.span.Fits g ∧ f.2.Fits g

section

variable {n : Nat}

theorem binding_keeps (ih : ExprsKeep g n) (hs : s.Fits g m) (hend : s.atEnd = false) :
    (binding (n + 1)).Yields s fun b s' => s'.Fits g m ∧ b.Fits g := by
  refine bumped hs hend fun hlet => (eat_keeps (.keyword .recKw) nofun).next fun recToken => ?_
  refine (bindingPattern_keeps ((patternsKeep g n).atomicPattern _)).bind fun pattern hpattern => ?_
  refine (params_keeps g n _).bind fun parameters hparameters => ?_
  refine (when_keeps (error_keeps _ hpattern.span)).next fun _ => ?_
  refine (behind?_keeps (.punct .colon) nofun ((typesKeep g n).type _)).bind fun returnType hreturn => ?_
  refine (behind_keeps (.operator .eq) nofun (ih.body _)).bind fun value hvalue => ?_
  refine .getBind fun s' hs' => .pure ⟨?_, hvalue⟩
  have hspan : Span.Fits g ⟨s.current.span.start, s'.prevEnd⟩ :=
    ⟨Nat.le_trans hlet.span.ordered hs'.behind, hlet.span.start, hs'.prevEnd⟩
  refine List.forall_mem_cons.mpr ⟨hspan, List.forall_mem_append.mpr
    ⟨List.forall_mem_append.mpr ⟨hpattern, Pattern.fits_ofAll hparameters⟩, ?_⟩⟩
  cases returnType with
  | none => exact nofun
  | some t => exact hreturn t rfl

theorem letScope_keeps (ih : ExprsKeep g n) (m : Nat) {b : Binding} (hb : b.Fits g) :
    (letScope (n + 1) b).Keeps g m (·.Fits g) :=
  skip_keeps.next fun _ => (ih.body m).bind fun _ hscope =>
    .pure (hb.letIn (hb.span.merge hscope.span) hscope)

theorem body_keeps (ih : ExprsKeep g n) (m : Nat) : (body (n + 1)).Keeps g m (·.Fits g) :=
  .getBind fun _ _ => .ite (fun _ => missingExpr_keeps) fun _ =>
    .ite (fun _ => withOffside_keeps (ih.statements m _)) fun _ => ih.expr m

/-- A binding, and what stands behind it. -/
theorem bound_keeps (ih : ExprsKeep g n) {f : Binding → Parser β} (hs : s.Fits g m)
    (hlet : s.peek = .keyword .letKw) (hf : ∀ b, b.Fits g → (f b).Keeps g m Q) :
    (binding n >>= f).Yields s fun a s' => s'.Fits g m ∧ Q a :=
  (ih.binding m s hs (atEnd_of_peek hlet nofun)).mono fun b s₁ h₁ => hf b h₁.2 s₁ h₁.1

theorem statements_keeps (ih : ExprsKeep g n) (m column : Nat) :
    (statements (n + 1) column).Keeps g m (·.Fits g) := by
  intro s hs
  rw [statements, yields_bind, yields_get]
  split
  case isTrue hlet =>
    refine bound_keeps ih hs hlet fun b hb => .getBind fun s hs => .ite (fun _ => ih.letScope m b hb) fun _ => ?_
    refine skipStray_keeps.next fun _ => (blockRest_keeps column hb (ih.statements m column)).bind ?_
    exact fun scope hscope => .pure (hb.letIn (hb.span.merge hscope.span) hscope)
  case isFalse =>
    suffices h : Keeps _ g m (Expr.Fits g) from h s hs
    refine .getBind fun s hs => setAnchor_keeps.next fun _ => (ih.expr m).bind fun first hfirst => ?_
    refine (ifStuck_keeps skip_keeps).next fun _ => skipStray_keeps.next fun _ => ?_
    refine Keeps.next (P := fun _ => True) (.getBind fun _ _ => .pure trivial) fun _ => ?_
    refine .ite (fun _ => (ih.statements m column).bind fun second hsecond => .pure ?_) fun _ => .pure hfirst
    exact .of_children (List.forall_mem_singleton.mpr (hfirst.span.merge hsecond.span)) trivial
      (List.forall_mem_cons.mpr ⟨hfirst, List.forall_mem_singleton.mpr hsecond⟩)

theorem expr_keeps (ih : ExprsKeep g n) (m : Nat) : (expr (n + 1)).Keeps g m (·.Fits g) := by
  refine (ih.simpleExpr m).bind fun first hfirst => (ih.tupleItems m).bind fun more hmore => ?_
  split
  case h_1 last hlast =>
    have hlast := hmore last (List.mem_of_getLast? hlast)
    exact .pure (.of_children (List.forall_mem_singleton.mpr (hfirst.span.merge hlast.span)) trivial
      (List.forall_mem_cons.mpr ⟨hfirst, hmore⟩))
  case h_2 => exact .pure hfirst

theorem tupleItems_keeps (ih : ExprsKeep g n) (m : Nat) :
    (tupleItems (n + 1)).Keeps g m fun items => ∀ e ∈ items, e.Fits g :=
  .getBind fun _ _ => .ite (fun _ => skip_keeps.next fun _ => (ih.simpleExpr m).bind fun _ hitem =>
    (ih.tupleItems m).bind fun _ hmore => .pure (List.forall_mem_cons.mpr ⟨hitem, hmore⟩)) fun _ => .pure nofun

theorem simpleExpr_keeps (ih : ExprsKeep g n) (m : Nat) : (simpleExpr (n + 1)).Keeps g m (·.Fits g) := by
  intro s hs
  rw [simpleExpr, yields_bind, yields_get]
  split
  case h_1 hlet =>
    refine bound_keeps ih hs hlet fun b hb => .getBind fun s hs => .ite (fun _ => ih.letScope m b hb) fun _ => ?_
    exact (error_keeps _ hb.pattern.span).next fun _ => .pure (hb.letIn hb.span (Expr.fits_error hb.span.stop))
  case h_2 hif => exact ih.conditional m s hs (atEnd_of_peek hif (by simp))
  case h_3 hfun => exact ih.lambda m s hs (atEnd_of_peek hfun (by simp))
  case h_4 => exact ih.operand m 0 s hs

theorem conditional_keeps (ih : ExprsKeep g n) (hs : s.Fits g m) (hend : s.atEnd = false) :
    (conditional (n + 1)).Yields s fun e s' => s'.Fits g m ∧ e.Fits g := by
  refine bumped hs hend fun hif => (ih.expr _).bind fun condition hcondition => ?_
  refine (thenPart_keeps (ih.body _)).bind fun thenBranch hthen => ?_
  refine (elsePart_keeps (ih.body _)).bind fun elseBranch helse => .getBind fun s' hs' => .pure ?_
  refine .of_children (List.forall_mem_singleton.mpr ?_) trivial ?_
  · exact ⟨Nat.le_trans hif.span.ordered hs'.behind, hif.span.start, hs'.prevEnd⟩
  · refine List.forall_mem_cons.mpr ⟨hcondition, List.forall_mem_cons.mpr ⟨hthen, fun e he => ?_⟩⟩
    exact helse e (Option.mem_toList.mp he)

theorem lambda_keeps (ih : ExprsKeep g n) (hs : s.Fits g m) (hend : s.atEnd = false) :
    (lambda (n + 1)).Yields s fun e s' => s'.Fits g m ∧ e.Fits g := by
  refine bumped hs hend fun hfun => (params_keeps g n _).bind fun parameters hparameters => ?_
  refine (when_keeps (missing_keeps _)).next fun _ => ?_
  refine (behind_keeps (.operator .arrow) nofun (ih.body _)).bind fun value hvalue => ?_
  refine .getBind fun s' hs' => .pure ?_
  refine .of_children (List.forall_mem_cons.mpr ⟨?_, Pattern.fits_ofAll hparameters⟩) trivial
    (List.forall_mem_singleton.mpr hvalue)
  exact ⟨Nat.le_trans hfun.span.ordered hs'.behind, hfun.span.start, hs'.prevEnd⟩

theorem operand_keeps (ih : ExprsKeep g n) (m power : Nat) : (operand (n + 1) power).Keeps g m (·.Fits g) :=
  (ih.unary m).bind fun lhs hlhs => ih.operations m power lhs hlhs

theorem operations_keeps (ih : ExprsKeep g n) (m power : Nat) {lhs : Expr} (hlhs : lhs.Fits g) :
    (operations (n + 1) power lhs).Keeps g m (·.Fits g) := by
  refine .getBind fun s hs => ?_
  split
  · exact .pure hlhs
  · refine .ite (fun _ => .pure hlhs) fun _ => bump_keeps.bind fun opToken hop => ?_
    refine (rightOperand_keeps (ih.simpleExpr m) (ih.operand m _)).bind fun rhs hrhs => ?_
    refine ih.operations m power _ (.of_children ?_ trivial ?_)
    · exact List.forall_mem_cons.mpr
        ⟨(hlhs.span.merge hrhs.span).merge hop, List.forall_mem_singleton.mpr hop⟩
    · exact List.forall_mem_cons.mpr ⟨hlhs, List.forall_mem_singleton.mpr hrhs⟩

theorem unary_keeps (ih : ExprsKeep g n) (m : Nat) : (unary (n + 1)).Keeps g m (·.Fits g) := by
  refine .getBind fun s hs => .ite (fun _ => ?_) fun _ =>
    (ih.accessed m).bind fun function hfunction => ih.arguments m function hfunction
  refine bump_keeps.bind fun minus hminus => (ih.unary m).bind fun inner hinner => .pure ?_
  exact .of_children (List.forall_mem_singleton.mpr (hminus.merge hinner.span)) trivial
    (List.forall_mem_singleton.mpr hinner)

theorem arguments_keeps (ih : ExprsKeep g n) (m : Nat) {function : Expr} (hfunction : function.Fits g) :
    (arguments (n + 1) function).Keeps g m (·.Fits g) := by
  refine .getBind fun s hs => .ite (fun _ => (ih.accessed m).bind fun argument hargument => ?_) fun _ =>
    .pure hfunction
  refine ih.arguments m _ (.of_children ?_ trivial ?_)
  · exact List.forall_mem_singleton.mpr (hfunction.span.merge hargument.span)
  · exact List.forall_mem_cons.mpr ⟨hfunction, List.forall_mem_singleton.mpr hargument⟩

theorem accessed_keeps (ih : ExprsKeep g n) (m : Nat) : (accessed (n + 1)).Keeps g m (·.Fits g) :=
  (ih.atom m).bind fun target htarget => ih.accesses m target htarget

theorem accesses_keeps (ih : ExprsKeep g n) (m : Nat) {target : Expr} (htarget : target.Fits g) :
    (accesses (n + 1) target).Keeps g m (·.Fits g) := by
  intro s hs
  rw [accesses, yields_bind, yields_get]
  split
  case h_1 =>
    suffices h : Keeps _ g m (Expr.Fits g) from h s hs
    refine .ite (fun _ => .pure htarget) fun _ => bump_keeps.bind fun dot hdot => ?_
    refine memberName?_keeps.bind fun name hname => ?_
    have htargets : ∀ c ∈ [target], c.Fits g := List.forall_mem_singleton.mpr htarget
    cases name with
    | some name =>
      have hname := hname name rfl
      refine ih.accesses m _ (.of_children ?_ trivial htargets)
      exact List.forall_mem_cons.mpr ⟨htarget.span.merge hname, List.forall_mem_cons.mpr
        ⟨hdot, List.forall_mem_singleton.mpr hname⟩⟩
    | none =>
      refine (report_keeps hdot).next fun _ => ih.accesses m _ (.of_children ?_ trivial htargets)
      exact List.forall_mem_cons.mpr ⟨htarget.span.merge hdot, List.forall_mem_singleton.mpr hdot⟩
  case h_2 hparen =>
    split
    case isTrue => exact ⟨hs, htarget⟩
    case isFalse =>
      refine bumped hs (atEnd_of_peek hparen (by simp)) fun hopener => ?_
      refine (nested_keeps (ih.callArguments _)).bind fun r hr => ?_
      refine (parentheses_keeps hopener.span (Nat.le_refl _) hr.2).bind fun parens hparens => ?_
      refine ih.accesses _ _ (.of_children ?_ trivial (List.forall_mem_cons.mpr ⟨htarget, hr.1⟩))
      exact List.forall_mem_cons.mpr ⟨htarget.span.merge hparens, List.forall_mem_singleton.mpr hparens⟩
  case h_3 => exact ⟨hs, htarget⟩

theorem callArguments_keeps (ih : ExprsKeep g n) (m : Nat) : (callArguments (n + 1)).Keeps g m fun r =>
    (∀ e ∈ r.1, e.Fits g) ∧ ∀ close ∈ r.2, close.Fits g := by
  refine (eat_keeps (.punct .rparen) (by simp)).bind fun close hclose => ?_
  cases close with
  | some close => exact .pure ⟨by simp, fun span hspan => (hclose span hspan).1⟩
  | none =>
    refine .getBind fun s hs => .ite (fun _ => .pure ⟨by simp, by simp⟩) fun _ => ?_
    refine (ih.simpleExpr m).bind fun arg harg => ?_
    have hmore : (callArgumentsFrom n arg).Keeps g m fun r =>
        (∀ e ∈ r.1, e.Fits g) ∧ ∀ close ∈ r.2, close.Fits g :=
      (ih.callArguments m).bind fun r hr => .pure ⟨List.forall_mem_cons.mpr ⟨harg, hr.1⟩, hr.2⟩
    refine (eat_keeps (.punct .comma) (by simp)).next fun comma => ?_
    cases comma with
    | some comma => exact hmore
    | none =>
      refine .getBind fun s' hs' => .ite (fun _ => .pure ?_) fun _ => hmore
      exact ⟨List.forall_mem_singleton.mpr harg, by simp⟩

theorem atom_keeps (ih : ExprsKeep g n) (m : Nat) : (atom (n + 1)).Keeps g m (·.Fits g) := by
  intro s hs
  simp only [atom, yields_bind, yields_get]
  split
  case isTrue => exact missingExpr_keeps s hs
  case isFalse =>
    split
    case h_1 text hident =>
      refine skipped hs (atEnd_of_peek hident (by simp)) fun ht => .pure ?_
      exact .of_children (List.forall_mem_singleton.mpr ht.span) trivial (by rintro _ ⟨⟩)
    case h_2 hparen => exact ih.parenthesised m s hs (atEnd_of_peek hparen (by simp))
    case h_3 hbracket =>
      have hitem (m : Nat) : (some <$> expr n).Keeps g m fun found => ∀ e ∈ found, e.Fits g := by
        intro s hs
        rw [yields_map]
        exact (ih.expr m s hs).mono fun e s' h => ⟨h.1, fun f hf => Option.mem_some.mp hf ▸ h.2⟩
      rw [yields_bind]
      refine (bracketed_keeps hs (atEnd_of_peek hbracket (by simp)) hitem n).mono fun r s' h => ⟨h.1, ?_⟩
      exact .of_children (List.forall_mem_singleton.mpr h.2.2) trivial h.2.1
    case h_4 hbrace =>
      have hend := atEnd_of_peek hbrace (by simp)
      rw [yields_bind]
      refine (bracketed_keeps hs hend ih.recordField n).mono fun r s' h => ⟨h.1, ?_⟩
      refine .of_children (List.forall_mem_cons.mpr ⟨h.2.2, fun span hspan => ?_⟩)
        ((hs.current hend).brace hbrace) fun c hc => ?_
      · obtain ⟨f, hf, rfl⟩ := List.mem_map.mp hspan
        exact (h.2.1 f hf).1
      · obtain ⟨f, hf, rfl⟩ := List.mem_map.mp hc
        exact (h.2.1 f hf).2
    case h_8 =>
      suffices h : Keeps _ g m (Expr.Fits g) from h s hs
      refine (literal?_keeps hs.currentSpan).next fun value => ?_
      cases value with
      | some value => exact skip_keeps.next fun _ => .pure (Expr.fits_literal hs.currentSpan value)
      | none => exact (error_keeps _ hs.currentSpan).next fun _ => .pure (Expr.fits_error hs.currentSpan.start)
    all_goals exact ih.simpleExpr m s hs

theorem parenthesised_keeps (ih : ExprsKeep g n) (hs : s.Fits g m) (hend : s.atEnd = false) :
    (parenthesised (n + 1)).Yields s fun e s' => s'.Fits g m ∧ e.Fits g := by
  refine bumped hs hend fun hopener => (eat_keeps (.punct .rparen) nofun).bind fun close hclose => ?_
  cases close with
  | some close => exact .pure (Expr.fits_literal (hopener.span.merge (hclose close rfl).1) .unit)
  | none =>
    refine (nested_keeps (ih.annotated _)).bind fun inner hinner => ?_
    refine (closing_keeps .rparen hopener.span).bind fun stop hstop => .pure ?_
    refine .of_children (List.forall_mem_singleton.mpr ?_) trivial (List.forall_mem_singleton.mpr hinner)
    exact ⟨Nat.le_trans hopener.span.ordered hstop.2, hopener.span.start, hstop.1⟩

theorem annotated_keeps (ih : ExprsKeep g n) (m : Nat) : (annotated (n + 1)).Keeps g m (·.Fits g) := by
  refine (ih.expr m).bind fun inner hinner => .getBind fun s hs => .ite (fun _ => ?_) fun _ => .pure hinner
  refine skip_keeps.next fun _ => ((typesKeep g n).type m).bind fun written hwritten => .pure ?_
  exact .of_children (List.forall_mem_cons.mpr ⟨hinner.span.merge hwritten.span, hwritten⟩) trivial
    (List.forall_mem_singleton.mpr hinner)

theorem recordField_keeps (ih : ExprsKeep g n) (m : Nat) :
    (recordField (n + 1)).Keeps g m fun found => ∀ f ∈ found, f.1.span.Fits g ∧ f.2.Fits g := by
  refine ident?_keeps.bind fun name hname => ?_
  cases name with
  | none => exact .pure nofun
  | some name =>
    refine (behind_keeps (.operator .eq) nofun (ih.expr m)).bind fun value hvalue => .pure fun f hf => ?_
    exact Option.mem_some.mp hf ▸ ⟨hname name rfl, hvalue⟩

end

theorem exprsKeep (g : Sites) (n : Nat) : ExprsKeep g n := by
  induction n with
  | zero =>
    refine {
      binding := fun m s hs _ => ⟨hs, ?_, Expr.fits_literal (.empty hs.prevEnd) .unit⟩
      letScope := fun m b hb => .pure (hb.letIn hb.span (Expr.fits_error hb.span.stop))
      body := fun _ => missingExpr_keeps
      statements := fun _ _ => missingExpr_keeps
      expr := fun _ => missingExpr_keeps
      tupleItems := fun _ => .pure nofun
      simpleExpr := fun _ => missingExpr_keeps
      conditional := fun _ s hs _ => missingExpr_keeps s hs
      lambda := fun _ s hs _ => missingExpr_keeps s hs
      operand := fun _ _ => missingExpr_keeps
      operations := fun _ _ _ hlhs => .pure hlhs
      unary := fun _ => missingExpr_keeps
      arguments := fun _ _ hfunction => .pure hfunction
      accessed := fun _ => missingExpr_keeps
      accesses := fun _ _ htarget => .pure htarget
      callArguments := fun _ => .pure ⟨nofun, nofun⟩
      atom := fun _ => missingExpr_keeps
      parenthesised := fun _ s hs _ => missingExpr_keeps s hs
      annotated := fun _ => missingExpr_keeps
      recordField := fun _ => .pure nofun }
    have hplace : (Span.empty s.prevEnd).Fits g := .empty hs.prevEnd
    exact List.forall_mem_cons.mpr ⟨hplace, List.forall_mem_singleton.mpr hplace⟩
  | succ n ih =>
    exact {
      binding := fun _ _ => binding_keeps ih
      letScope := fun m _ => letScope_keeps ih m
      body := body_keeps ih
      statements := statements_keeps ih
      expr := expr_keeps ih
      tupleItems := tupleItems_keeps ih
      simpleExpr := simpleExpr_keeps ih
      conditional := fun _ _ => conditional_keeps ih
      lambda := fun _ _ => lambda_keeps ih
      operand := operand_keeps ih
      operations := fun m power _ => operations_keeps ih m power
      unary := unary_keeps ih
      arguments := fun m _ => arguments_keeps ih m
      accessed := accessed_keeps ih
      accesses := fun m _ => accesses_keeps ih m
      callArguments := callArguments_keeps ih
      atom := atom_keeps ih
      parenthesised := fun _ _ => parenthesised_keeps ih
      annotated := annotated_keeps ih
      recordField := recordField_keeps ih }

end Parser

/-! Declarations -/

structure Decl.Fits (g : Sites) (d : Decl) : Prop where
  spans : ∀ s ∈ d.spans, s.Fits g
  braced : ∀ e ∈ d.exprs, e.Braced g

structure Decl.FitAll (g : Sites) (ds : List Decl) : Prop where
  spans : ∀ s ∈ spansOfAll ds, s.Fits g
  braced : ∀ e ∈ exprsOfAll ds, e.Braced g

theorem Decl.FitAll.cons {d : Decl} {ds : List Decl} (h : d.Fits g) (hs : FitAll g ds) : FitAll g (d :: ds) :=
  ⟨List.forall_mem_append.mpr ⟨h.spans, hs.spans⟩, List.forall_mem_append.mpr ⟨h.braced, hs.braced⟩⟩

theorem Expr.Fits.decl {e : Expr} (h : e.Fits g) {span : Span} (hspan : span.Fits g) :
    (Decl.expr span e).Fits g :=
  ⟨List.forall_mem_cons.mpr ⟨hspan, h.spans⟩, h.braced⟩

theorem Decl.fits_error {span : Span} (h : span.Fits g) : (error span).Fits g :=
  ⟨List.forall_mem_singleton.mpr h, nofun⟩

namespace Parser

open ParserState

variable {β : Type} {s : ParserState}

theorem header_keeps : header.Keeps g m fun found => ∀ n ∈ found, n.Fits g := by
  refine .getBind fun s hs => .ite (fun _ => .pure nofun) fun _ => .ite (fun _ => .pure nofun) fun _ => ?_
  refine skip_keeps.next fun _ => longIdent?_keeps.bind fun name hname => ?_
  cases name with
  | some name => exact .pure hname
  | none => exact unexpected_keeps.next fun _ => .pure nofun

theorem fieldDecls_keeps {unclosed : SyntaxError} (hunclosed : unclosed.span.Fits g) (n m : Nat) :
    (fieldDecls unclosed n).Keeps g m fun fields => ∀ s ∈ (TypeBody.record fields).spans, s.Fits g := by
  induction n with
  | zero => exact .pure nofun
  | succ n ih =>
    refine (eat_keeps (.punct .rbrace) nofun).next fun found => ?_
    cases found with
    | some span => exact .pure nofun
    | none =>
      refine .getBind fun s hs => .ite (fun _ => (report_keeps hunclosed).next fun _ => .pure nofun) fun _ => ?_
      refine (eat_keeps (.punct .semicolon) nofun).next fun found => ?_
      cases found with
      | some span => exact ih
      | none =>
        refine ident?_keeps.bind fun name hname => ?_
        cases name with
        | none => exact reject_keeps.next fun _ => ih
        | some name =>
          refine (expect_keeps (.punct .colon) nofun _).next fun _ => ?_
          refine ((typesKeep g n).type m).bind fun t ht => ih.bind fun fields hfields => .pure ?_
          rw [TypeBody.spans, List.flatMap_cons]
          exact List.forall_mem_append.mpr ⟨List.forall_mem_cons.mpr ⟨hname name rfl, ht⟩, hfields⟩

theorem typeDecl_keeps (n m : Nat) :
    (typeDecl n).Keeps g m fun shape => ∀ span : Span, span.Fits g → (shape span).Fits g := by
  have herror : Keeps (pure Decl.error) g m fun shape => ∀ span : Span, span.Fits g → (shape span).Fits g :=
    .pure fun _ => Decl.fits_error
  have htype {name : Ident} (hname : name.span.Fits g) {body : TypeBody} (hbody : ∀ s ∈ body.spans, s.Fits g)
      (span : Span) (hspan : span.Fits g) : (Decl.type span name body).Fits g :=
    ⟨List.forall_mem_cons.mpr ⟨hspan, List.forall_mem_cons.mpr ⟨hname, hbody⟩⟩, nofun⟩
  refine skip_keeps.next fun _ => ident?_keeps.bind fun name hname => ?_
  cases name with
  | none => exact (missing_keeps _).next fun _ => herror
  | some name =>
    refine (expect_keeps (.operator .eq) nofun _).next fun found => ?_
    cases found with
    | none => exact herror
    | some span =>
      refine .getBind fun s hs => .ite (fun _ => bump_keeps.bind fun opener hopener => ?_) fun _ => ?_
      · refine .getBind fun s hs => (nested_keeps (withOffside_keeps (fieldDecls_keeps hopener n m))).bind ?_
        exact fun fields hfields => .pure (htype (hname name rfl) hfields)
      · exact ((typesKeep g n).type m).bind fun t ht => .pure (htype (hname name rfl) ht)

theorem directiveArgs_keeps (invalid : SyntaxError.Cause) (n m : Nat) :
    (directiveArgs invalid n).Keeps g m fun args => ∀ a ∈ args, a.span.Fits g := by
  induction n with
  | zero => exact .pure nofun
  | succ n ih =>
    refine .getBind fun s hs => .ite (fun _ => .pure nofun) fun _ => ?_
    refine (when_keeps (error_keeps _ hs.currentSpan)).next fun _ => skip_keeps.next fun _ => ?_
    refine ih.bind fun args hargs => .pure (List.forall_mem_append.mpr ⟨fun a ha => ?_, hargs⟩)
    have harg := Option.mem_toList.mp ha
    unfold directiveArg? at harg
    split at harg
    all_goals first | (obtain rfl := Option.some.inj harg; exact hs.currentSpan) | cases harg

theorem directive_keeps {raw : String} (n : Nat) (hs : s.Fits g m) (hraw : s.peek = .directive raw) :
    (directive raw n).Yields s fun d s' => s'.Fits g m ∧ ∀ span ∈ d.spans, span.Fits g := by
  refine bumped hs (atEnd_of_peek hraw nofun) fun ht => ?_
  refine (directiveArgs_keeps _ n _).bind fun args hargs => .getBind fun _ _ => ?_
  refine (when_keeps (report_keeps ht.span)).next fun _ => .getBind fun s' hs' => .pure ?_
  refine List.forall_mem_cons.mpr ⟨?_, List.forall_mem_cons.mpr ⟨ht.name raw hraw, fun span hspan => ?_⟩⟩
  · exact ⟨Nat.le_trans ht.span.ordered hs'.behind, ht.span.start, hs'.prevEnd⟩
  · obtain ⟨a, ha, rfl⟩ := List.mem_map.mp hspan
    exact hargs a ha

structure DeclsKeep (g : Sites) (n : Nat) : Prop where
  decls : ∀ m column, (decls n column).Keeps g m (Decl.FitAll g)
  decl : ∀ m column, (decl n column).Keeps g m (Decl.Fits g)
  moduleDecl : ∀ m column, (moduleDecl n column).Keeps g m fun shape =>
    ∀ span : Span, span.Fits g → (shape span).Fits g

section

variable {n : Nat}

theorem decls_keeps (ih : DeclsKeep g n) (m column : Nat) :
    (decls (n + 1) column).Keeps g m (Decl.FitAll g) := by
  refine .getBind fun s hs => .ite (fun _ => .pure ⟨nofun, nofun⟩) fun _ => .ite (fun _ => ?_) fun _ => ?_
  · refine (error_keeps _ hs.currentSpan).next fun _ => skip_keeps.next fun _ => ?_
    exact (skipWhile_keeps _).next fun _ => ih.decls m column
  · refine setAnchor_keeps.next fun _ => (ih.decl m column).bind fun d hd => ?_
    refine (ifStuck_keeps reject_keeps).next fun _ => .getBind fun _ _ => ?_
    refine (when_keeps unexpected_keeps).next fun _ => (skipWhile_keeps _).next fun _ => ?_
    exact (ih.decls m column).bind fun ds hds => .pure (hds.cons hd)

theorem moduleDecl_keeps (ih : DeclsKeep g n) (m column : Nat) :
    (moduleDecl (n + 1) column).Keeps g m fun shape =>
      ∀ span : Span, span.Fits g → (shape span).Fits g := by
  have herror : Keeps (pure Decl.error) g m fun shape => ∀ span : Span, span.Fits g → (shape span).Fits g :=
    .pure fun _ => Decl.fits_error
  refine skip_keeps.next fun _ => ident?_keeps.bind fun name hname => ?_
  cases name with
  | none => exact (missing_keeps _).next fun _ => herror
  | some name =>
    have hmodule {members : List Decl} (hmembers : Decl.FitAll g members) (span : Span) (hspan : span.Fits g) :
        (Decl.module span name members).Fits g :=
      ⟨List.forall_mem_cons.mpr ⟨hspan, List.forall_mem_cons.mpr ⟨hname name rfl, hmembers.spans⟩⟩,
        hmembers.braced⟩
    refine (expect_keeps (.operator .eq) nofun _).next fun found => ?_
    cases found with
    | none => exact herror
    | some span =>
      refine .getBind fun s hs => .ite (fun _ => ?_) fun _ => ?_
      · exact (error_keeps _ (.empty hs.prevEnd)).next fun _ => .pure (hmodule ⟨nofun, nofun⟩)
      · exact (withOffside_keeps (ih.decls m _)).bind fun members hmembers => .pure (hmodule hmembers)

theorem decl_keeps (ih : DeclsKeep g n) (m column : Nat) :
    (decl (n + 1) column).Keeps g m (Decl.Fits g) := by
  have exprs := exprsKeep g n
  intro s hs
  simp only [decl]
  rw [yields_bind, yields_get, yields_bind]
  refine Yields.mono (Q := fun shape s' => s'.Fits g m ∧ ∀ span : Span, span.Fits g → (shape span).Fits g) ?_
    fun shape s₁ h₁ => ⟨h₁.1, h₁.2 _ ?_⟩
  · split
    case h_1 hlet =>
      refine bound_keeps exprs hs hlet fun b hb => .getBind fun s hs => .ite (fun _ => ?_) fun _ => .pure ?_
      · exact (exprs.letScope m b hb).bind fun e he => .pure fun _ hspan => he.decl hspan
      · refine fun span hspan => ⟨List.forall_mem_cons.mpr ⟨hspan, ?_⟩, hb.body.braced⟩
        exact List.forall_mem_append.mpr ⟨hb.head, hb.body.spans⟩
    case h_2 =>
      suffices h : Keeps _ g m fun shape : Span → Decl => ∀ span : Span, span.Fits g → (shape span).Fits g from
        h s hs
      refine skip_keeps.next fun _ => longIdent?_keeps.bind fun path hpath => ?_
      cases path with
      | some path =>
        exact .pure fun span hspan => ⟨List.forall_mem_cons.mpr ⟨hspan, hpath path rfl⟩, by rintro _ ⟨⟩⟩
      | none => exact (missing_keeps _).next fun _ => .pure fun _ => Decl.fits_error
    case h_3 => exact ih.moduleDecl m column s hs
    case h_4 => exact typeDecl_keeps n m s hs
    case h_5 raw hraw =>
      rw [yields_bind]
      refine (directive_keeps _ hs hraw).mono fun d s' h => ⟨h.1, fun span hspan => ?_⟩
      exact ⟨List.forall_mem_cons.mpr ⟨hspan, h.2⟩, by rintro _ ⟨⟩⟩
    case h_6 =>
      suffices h : Keeps _ g m fun shape : Span → Decl => ∀ span : Span, span.Fits g → (shape span).Fits g from
        h s hs
      exact skip_keeps.next fun _ => (exprs.body m).bind fun e he => .pure fun _ hspan => he.decl hspan
    case h_7 =>
      suffices h : Keeps _ g m fun shape : Span → Decl => ∀ span : Span, span.Fits g → (shape span).Fits g from
        h s hs
      exact (exprs.expr m).bind fun e he => skipStray_keeps.next fun _ => .pure fun _ hspan => he.decl hspan
  · refine ⟨Nat.le_max_right _ _, hs.currentSpan.start, ?_⟩
    rcases Nat.le_total s₁.prevEnd s.current.span.start with h | h
    · exact (Nat.max_eq_right h).symm ▸ hs.currentSpan.start
    · exact (Nat.max_eq_left h).symm ▸ h₁.1.prevEnd

end

theorem declsKeep (hzero : g.IsEdge 0) (n : Nat) : DeclsKeep g n := by
  induction n with
  | zero =>
    exact ⟨fun _ _ => .pure ⟨nofun, nofun⟩, fun _ _ => .pure (Decl.fits_error (.empty hzero)),
      fun _ _ => .pure fun _ => Decl.fits_error⟩
  | succ n ih => exact ⟨decls_keeps ih, decl_keeps ih, moduleDecl_keeps ih⟩

theorem file_keeps (hzero : g.IsEdge 0) (n m : Nat) : (file n).Keeps g m fun r =>
    (∀ name ∈ r.1, name.Fits g) ∧ Decl.FitAll g r.2 :=
  header_keeps.bind fun _ hname => .getBind fun _ _ =>
    (withOffside_keeps ((declsKeep hzero n).decls m _)).bind fun _ hmembers => .pure ⟨hname, hmembers⟩

end Parser

/-! Files -/

namespace SyntaxFile

/-- The places that the tokens of the text tell of. -/
def sites (text : Text) (defines : List String) : Sites where
  IsEdge n := text.isBoundary n = true
  IsBrace n := ∃ t ∈ (significantTokens text defines).1, t.token = .punct .lbrace ∧ t.span.start = n

variable (path : Path) (text : Text) (kind : SourceKind) (defines : List String)

theorem start_fits : (start text kind defines).Fits (sites text defines) 0 where
  ascending := (significantTokens_parted text defines).ascending
  tokens t ht := by
    have hmem : t.source ∈ Token.tokens text :=
      (significantTokens_sublist text defines).subset (List.mem_map_of_mem ht)
    have hvalid := Token.validIn_of_mem hmem
    refine ⟨⟨hvalid.ordered, hvalid.start, hvalid.stop⟩, fun raw hraw => ?_, fun hbrace => ⟨t, ht, hbrace, rfl⟩⟩
    have hsource : t.source = (.directive raw, t.span) := Prod.ext hraw rfl
    have hname := Token.directiveName_validIn (hsource ▸ hmem)
    exact ⟨hname.ordered, hname.start, hname.stop⟩
  size := by
    have h := Text.isBoundary_byteSize text []
    rwa [List.append_nil] at h
  prevEnd := Text.isBoundary_byteSize [] text
  behind := Nat.le_refl 0
  errors e he := by
    have hvalid := significantTokens_errors_validIn text defines e he
    exact ⟨hvalid.ordered, hvalid.start, hvalid.stop⟩

theorem parse_fits : let f := parse path text kind defines
    (∀ span ∈ f.spans, span.Fits (sites text defines)) ∧
      (∀ e ∈ f.errors, e.span.Fits (sites text defines)) ∧
        ∀ e ∈ Decl.exprsOfAll f.decls, e.Braced (sites text defines) := by
  let s := start text kind defines
  have hzero : (sites text defines).IsEdge 0 := Text.isBoundary_byteSize [] text
  obtain ⟨hstate, hheader, hdecls⟩ :=
    Parser.file_keeps hzero (depthBound s.rest.length) 0 s (start_fits text kind defines)
  refine ⟨List.forall_mem_append.mpr ⟨?_, hdecls.spans⟩, fun e he => ?_, hdecls.braced⟩
  · cases hname : (parse path text kind defines).header with
    | none => exact nofun
    | some name => exact hheader name hname
  · exact hstate.errors e (List.mem_mergeSort.mp he)

/-- The order of the errors is that of their places. -/
theorem errors_ordered :
    (parse path text kind defines).errors.Pairwise fun d e => d.span.start ≤ e.span.start := by
  have hle (d e : SyntaxError) : SyntaxError.le d e = true ↔
      d.span.start < e.span.start ∨ d.span.start = e.span.start ∧ d.span.stop ≤ e.span.stop := by
    simp only [SyntaxError.le, Span.before, Bool.not_eq_true', Bool.or_eq_false_iff,
      Bool.and_eq_false_iff, decide_eq_false_iff_not, beq_eq_false_iff_ne]
    omega
  refine (List.pairwise_mergeSort (fun c d e hcd hde => ?_) (fun d e => ?_) _).imp fun {d e} h => ?_
  · rw [hle] at hcd hde ⊢
    omega
  · rw [Bool.or_eq_true, hle, hle]
    omega
  · have h := (hle d e).mp h
    omega

/-- Every span of the tree and of the errors is a part of the text, and the errors stand in the order of
the text. -/
theorem parse_spans_valid :
    (∀ span ∈ (parse path text kind defines).spans, span.ValidIn text) ∧
      (∀ e ∈ (parse path text kind defines).errors, e.span.ValidIn text) ∧
        (parse path text kind defines).errors.Pairwise fun d e => d.span.start ≤ e.span.start := by
  have hvalid {span : Span} (h : span.Fits (sites text defines)) : span.ValidIn text :=
    ⟨h.ordered, Text.le_byteSize_of_isBoundary h.stop, h.start, h.stop⟩
  obtain ⟨hspans, herrors, -⟩ := parse_fits path text kind defines
  exact ⟨fun span hspan => hvalid (hspans span hspan), fun e he => hvalid (herrors e he),
    errors_ordered path text kind defines⟩

end SyntaxFile

end ScriptAnalyzer

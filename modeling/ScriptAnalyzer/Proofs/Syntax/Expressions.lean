import ScriptAnalyzer.Proofs.Syntax.Annotations
import ScriptAnalyzer.Proofs.Syntax.LetPlaces

namespace ScriptAnalyzer
namespace Parser

open ParserState

variable {α : Type} {T : LaidToken → Prop} {A : Nat → Prop} {c : Nat} {s : ParserState}

theorem missingExpr_takes (s : ParserState) :
    missingExpr.Yields s fun e => Takes T e.HasLetAt s :=
  (passes_report s _).takes

theorem behind_takes (hT : Resuming T c) {token : Token} (htoken : token.opensDecl = false)
    {what : String} {p : Parser Expr} (hc : c ≤ s.offside)
    (hp : ∀ s', c ≤ s'.offside → p.Yields s' fun e => Takes T e.HasLetAt s') :
    (behind token what p).Yields s fun e => Takes T e.HasLetAt s := by
  simp only [behind, yields_bind]
  refine (expect_passes hT htoken what s).mono fun found s₁ h₁ => ?_
  cases found with
  | none => exact h₁.takes
  | some span => exact (hp s₁ (h₁.le_offside hc)).mono fun e s₂ h₂ => h₁.trans_takes h₂

theorem bindingPattern_passes {p : Parser Pattern} (hp : p.Yields s fun _ => Passes T s) :
    (bindingPattern p).Yields s fun _ => Passes T s := by
  simp only [bindingPattern, yields_bind, yields_get]
  split
  · exact hp
  · exact hp
  · exact missing_passes _ s

theorem literal?_passes (t : LaidToken) (s : ParserState) :
    (literal? t).Yields s fun value s' =>
      Passes T s s' ∧ s'.current = s.current ∧ (value.isSome → t.token.opensDecl = false) := by
  unfold literal?
  split
  case h_1 text h =>
    simp only [h]
    split
    · exact ⟨Passes.refl s, rfl, fun _ => rfl⟩
    · simp only [yields_bind, yields_error, yields_pure]
      exact ⟨passes_report s _, current_report s _, fun _ => rfl⟩
  all_goals
    rename_i h
    first
      | exact ⟨Passes.refl s, rfl, fun _ => by rw [h]; rfl⟩
      | exact ⟨Passes.refl s, rfl, fun h => by cases h⟩

theorem sequenceItems_takes (hT : Resuming T c) {close : Punct} {unclosed : SyntaxError}
    {item : Parser (Option α)} {A : α → Nat → Prop}
    (hitem : ∀ s, c ≤ s.offside → item.Yields s fun a? => Takes T (fun x => ∃ a ∈ a?, A a x) s)
    (n : Nat) (s : ParserState) (hc : c ≤ s.offside) :
    (sequenceItems close unclosed item n).Yields s fun r =>
      Takes T (fun x => ∃ a ∈ r.1, A a x) s := by
  induction n generalizing s with
  | zero =>
    simp only [sequenceItems, yields_bind, yields_get, yields_pure]
    exact (Passes.refl s).takes
  | succ n ih =>
    simp only [sequenceItems, yields_bind]
    refine (eat_passes hT rfl s).mono fun found s₁ h₁ => ?_
    cases found with
    | some span =>
      simp only [yields_pure]
      exact h₁.takes
    | none =>
      simp only [yields_bind, yields_get]
      split
      · simp only [yields_bind, yields_report, yields_pure]
        exact (h₁.trans (passes_report s₁ _)).takes
      · simp only [yields_bind]
        refine (eat_passes hT rfl s₁).mono fun found s₂ h₂ => ?_
        have h := h₁.trans h₂
        cases found with
        | some span => exact (ih s₂ (h.le_offside hc)).mono fun r s₃ h₃ => h.trans_takes h₃
        | none =>
          simp only [yields_bind, yields_setAnchor, yields_pure]
          have h := h.trans (passes_anchor s₂ (some s₂.rest.length))
          refine (hitem _ (h.le_offside hc)).mono fun found s₃ h₃ => ?_
          refine (ifStuck_passes (T := T) (reject_passes s₃)).mono fun _ s₄ h₄ => ?_
          have h := (h.trans_takes h₃).passes h₄
          refine (ih s₄ (h.le_offside hc)).mono fun r s₅ h₅ => ?_
          refine (h.trans h₅).mono fun x hx => ?_
          rcases hx with ⟨a, ha, hx⟩ | ⟨a, ha, hx⟩
          · exact ⟨a, List.mem_append_left _ (by simpa using ha), hx⟩
          · exact ⟨a, List.mem_append_right _ ha, hx⟩

theorem bracketed_takes (hT : Resuming T c) {close : Punct} {delimiter : Char}
    {item : Parser (Option α)} {A : α → Nat → Prop}
    (hitem : ∀ s, c ≤ s.offside → item.Yields s fun a? => Takes T (fun x => ∃ a ∈ a?, A a x) s)
    (n : Nat) (hc : c ≤ s.offside) {opener : Token} (hopen : s.peek = opener)
    (hopener : opener.opensDecl = false) :
    (bracketed close delimiter item n).Yields s fun r => Takes T (fun x => ∃ a ∈ r.1, A a x) s := by
  simp only [bracketed, yields_bind, yields_bump, yields_get]
  have h₁ : Passes T s s.advance := passes_advance (hT.not_current hopen hopener)
  refine Yields.mono (nested_takes (withOffside_takes ?_)) fun r s₂ h₂ => h₁.trans_takes h₂
  exact sequenceItems_takes hT hitem n _ (Nat.le_trans (h₁.le_offside hc) (Nat.le_max_left _ _))

theorem blockRest_takes {column : Nat} {b : Binding} {p : Parser Expr}
    (hp : s.current.column = column → p.Yields s fun e => Takes T e.HasLetAt s) :
    (blockRest column b p).Yields s fun e => Takes T e.HasLetAt s := by
  simp only [blockRest, yields_bind]
  refine yields_atStatement column s _ fun found hfound => ?_
  cases found with
  | true => exact hp (hfound rfl).2
  | false => exact (passes_report s _).takes

theorem thenPart_takes (hT : Resuming T c) {p : Parser Expr} (hc : c ≤ s.offside)
    (hp : ∀ s', c ≤ s'.offside → p.Yields s' fun e => Takes T e.HasLetAt s') :
    (thenPart p).Yields s fun e => Takes T e.HasLetAt s := by
  simp only [thenPart, yields_bind, yields_get]
  split
  · exact (passes_report s _).takes
  · exact behind_takes hT rfl hc hp

theorem elsePart_takes (hT : Resuming T c) {p : Parser Expr} (hc : c ≤ s.offside)
    (hp : ∀ s', c ≤ s'.offside → p.Yields s' fun e => Takes T e.HasLetAt s') :
    (elsePart p).Yields s fun e? => Takes T (fun x => ∃ e ∈ e?, e.HasLetAt x) s := by
  simp only [elsePart, yields_bind, yields_get]
  split
  case isTrue h =>
    simp only [yields_bind, yields_skip, yields_pure]
    have h₁ : Passes T s s.advance := passes_advance (hT.not_current (peek_of_test h) rfl)
    refine (hp _ (h₁.le_offside hc)).mono fun e s₂ h₂ => (h₁.trans_takes h₂).mono fun x hx => ?_
    exact ⟨e, rfl, hx⟩
  case isFalse => exact pure_takes _ s

theorem rightOperand_takes {openExpr closed : Parser Expr}
    (hopen : openExpr.Yields s fun e => Takes T e.HasLetAt s)
    (hclosed : closed.Yields s fun e => Takes T e.HasLetAt s) :
    (rightOperand openExpr closed).Yields s fun e => Takes T e.HasLetAt s := by
  simp only [rightOperand, yields_bind, yields_get]
  split
  · exact hopen
  · exact hclosed

theorem memberName?_passes (hT : Resuming T c) (s : ParserState) :
    memberName?.Yields s fun _ => Passes T s := by
  simp only [memberName?, yields_bind, yields_get]
  split
  · exact Passes.refl s
  · exact ident?_passes hT s

theorem parentheses_passes (opener : Span) (close : Option Span) (s : ParserState) :
    (parentheses opener close).Yields s fun _ => Passes T s := by
  cases close with
  | none => exact passes_report s _
  | some close => exact Passes.refl s

structure ExprsTake (T : LaidToken → Prop) (c n : Nat) : Prop where
  binding : ∀ s, c ≤ s.offside → s.peek = .keyword .letKw →
    (binding n).Yields s fun b =>
      Takes T (fun x => (Opening T s x ∧ b.span.start = x) ∨ b.body.HasLetAt x) s
  letScope : ∀ b s, c ≤ s.offside → s.peek = .keyword .inKw →
    (letScope n b).Yields s fun e s' => Takes T e.HasLetAt s s' ∧ ∀ x, b.HasLetAt x → e.HasLetAt x
  body : ∀ s, c ≤ s.offside → (body n).Yields s fun e => Takes T e.HasLetAt s
  statements : ∀ column s, c ≤ s.offside → c < column → s.current.column = column →
    (statements n column).Yields s fun e => Takes T e.HasLetAt s
  expr : ∀ s, c ≤ s.offside → (expr n).Yields s fun e => Takes T e.HasLetAt s
  tupleItems : ∀ s, c ≤ s.offside →
    (tupleItems n).Yields s fun es => Takes T (fun x => ∃ e ∈ es, e.HasLetAt x) s
  simpleExpr : ∀ s, c ≤ s.offside → (simpleExpr n).Yields s fun e => Takes T e.HasLetAt s
  conditional : ∀ s, c ≤ s.offside → s.peek = .keyword .ifKw →
    (conditional n).Yields s fun e => Takes T e.HasLetAt s
  lambda : ∀ s, c ≤ s.offside → s.peek = .keyword .funKw →
    (lambda n).Yields s fun e => Takes T e.HasLetAt s
  operand : ∀ power s, c ≤ s.offside → (operand n power).Yields s fun e => Takes T e.HasLetAt s
  operations : ∀ power lhs s, c ≤ s.offside →
    (operations n power lhs).Yields s fun e s' =>
      Takes T e.HasLetAt s s' ∧ ∀ x, lhs.HasLetAt x → e.HasLetAt x
  unary : ∀ s, c ≤ s.offside → (unary n).Yields s fun e => Takes T e.HasLetAt s
  arguments : ∀ function s, c ≤ s.offside →
    (arguments n function).Yields s fun e s' =>
      Takes T e.HasLetAt s s' ∧ ∀ x, function.HasLetAt x → e.HasLetAt x
  accessed : ∀ s, c ≤ s.offside → (accessed n).Yields s fun e => Takes T e.HasLetAt s
  accesses : ∀ target s, c ≤ s.offside →
    (accesses n target).Yields s fun e s' =>
      Takes T e.HasLetAt s s' ∧ ∀ x, target.HasLetAt x → e.HasLetAt x
  callArguments : ∀ s, c ≤ s.offside →
    (callArguments n).Yields s fun r => Takes T (fun x => ∃ e ∈ r.1, e.HasLetAt x) s
  atom : ∀ s, c ≤ s.offside → (atom n).Yields s fun e => Takes T e.HasLetAt s
  parenthesised : ∀ s, c ≤ s.offside → s.peek = .punct .lparen →
    (parenthesised n).Yields s fun e => Takes T e.HasLetAt s
  annotated : ∀ s, c ≤ s.offside → (annotated n).Yields s fun e => Takes T e.HasLetAt s
  recordField : ∀ s, c ≤ s.offside →
    (recordField n).Yields s fun f? => Takes T (fun x => ∃ f ∈ f?, f.2.HasLetAt x) s

variable {n : Nat}

theorem binding_lets (ih : ExprsTake T c n) (hc : c ≤ s.offside) (hlet : s.peek = .keyword .letKw) :
    (binding n).Yields s fun b => Takes T b.HasLetAt s :=
  (ih.binding s hc hlet).mono fun _ _ h => h.mono fun _ hx => hx.imp_left And.right

theorem binding_takes (hT : Resuming T c) (ih : ExprsTake T c n) (hc : c ≤ s.offside) :
    (binding (n + 1)).Yields s fun b =>
      Takes T (fun x => (Opening T s x ∧ b.span.start = x) ∨ b.body.HasLetAt x) s := by
  simp only [binding, yields_bind, yields_bump, yields_get, yields_pure]
  have h : Takes T (Opening T s) s s.advance := takes_opening s
  refine (eat_passes hT rfl _).mono fun recToken s₁ h₁ => ?_
  refine (bindingPattern_passes ((patternsPass hT n).atomicPattern s₁)).mono fun pattern s₂ h₂ => ?_
  refine (params_passes hT n s₂).mono fun parameters s₃ h₃ => ?_
  refine (when_passes (T := T) (error_passes _ _ s₃)).mono fun _ s₄ h₄ => ?_
  refine (behind?_passes hT rfl (typesPass hT n).type s₄).mono fun returnType s₅ h₅ => ?_
  have h := ((((h.passes h₁).passes h₂).passes h₃).passes h₄).passes h₅
  refine (behind_takes hT rfl (h.le_offside hc) ih.body).mono fun value s₆ h₆ => ?_
  exact (h.trans h₆).mono fun x hx => hx.imp_left fun h => ⟨h, h.2⟩

theorem letScope_takes (hT : Resuming T c) (ih : ExprsTake T c n) (b : Binding) (hc : c ≤ s.offside)
    (hin : s.peek = .keyword .inKw) :
    (letScope (n + 1) b).Yields s fun e s' =>
      Takes T e.HasLetAt s s' ∧ ∀ x, b.HasLetAt x → e.HasLetAt x := by
  simp only [letScope, yields_bind, yields_skip, yields_pure]
  have h₁ : Passes T s s.advance := passes_advance (hT.not_current hin rfl)
  refine (ih.body _ (h₁.le_offside hc)).mono fun scope s₂ h₂ => ⟨?_, fun x hx => hx.letIn _ _⟩
  refine (h₁.trans_takes h₂).mono fun x hx => ?_
  rw [Expr.hasLetAt_letIn]
  exact .inr (.inr hx)

theorem body_takes (ih : ExprsTake T c n) (hc : c ≤ s.offside) :
    (body (n + 1)).Yields s fun e => Takes T e.HasLetAt s := by
  simp only [body, yields_bind, yields_get]
  split
  case isTrue => exact missingExpr_takes s
  case isFalse hstay =>
    split
    case isTrue hline =>
      have hright : s.offside < s.current.column := by
        simpa [hline] using (Bool.or_eq_false_iff.mp (Bool.eq_false_iff.mpr hstay)).2
      have hcolumn := Nat.lt_of_le_of_lt hc hright
      exact withOffside_takes (ih.statements _ _ (Nat.le_of_lt hcolumn) hcolumn rfl)
    case isFalse => exact ih.expr s hc

theorem ifStuck_skip_passes (hT : Resuming T c) {A : Nat → Prop} {s₁ : ParserState}
    (hcolumn : c < s.current.column) (h : Takes T A s s₁) :
    (ifStuck s.rest.length skip).Yields s₁ fun _ => Passes T s₁ := by
  simp only [ifStuck, yields_bind, yields_get]
  split
  case isTrue hlen =>
    refine passes_advance (hT.not_right ?_)
    obtain ⟨read, hr, -⟩ := h
    have hsame : s₁.rest = s.rest := by
      have hread := congrArg List.length hr.rest
      rw [List.length_append] at hread
      rw [hr.rest, List.eq_nil_of_length_eq_zero (by omega : read.length = 0), List.nil_append]
    rwa [current, hsame, hr.size]
  case isFalse => exact Passes.refl s₁

theorem statements_takes (hT : Resuming T c) (ih : ExprsTake T c n) (column : Nat)
    (hc : c ≤ s.offside) (hright : c < column) (hcolumn : s.current.column = column) :
    (statements (n + 1) column).Yields s fun e => Takes T e.HasLetAt s := by
  simp only [statements, yields_bind, yields_get]
  split
  case isTrue hlet =>
    simp only [yields_bind, yields_get]
    refine (binding_lets ih hc hlet).mono fun b s₁ h₁ => ?_
    split
    case isTrue hin =>
      refine (ih.letScope b s₁ (h₁.le_offside hc) hin).mono fun e s₂ ⟨h₂, hb⟩ => ?_
      exact (h₁.trans h₂).mono fun x hx => hx.elim (hb x) id
    case isFalse =>
      simp only [yields_bind, yields_pure]
      refine (skipStray_passes hT s₁).mono fun _ s₂ h₂ => ?_
      have h := h₁.passes h₂
      refine (blockRest_takes fun h' => ih.statements column s₂ (h.le_offside hc) hright h').mono
        fun scope s₃ h₃ => ?_
      refine (h.trans h₃).mono fun x hx => ?_
      rcases hx with hx | hx
      · exact hx.letIn _ _
      · simp [hx]
  case isFalse =>
    simp only [yields_bind, yields_get, yields_setAnchor]
    have h₁ : Passes T s _ := passes_anchor s (some s.rest.length)
    refine (ih.expr _ (h₁.le_offside hc)).mono fun first s₂ h₂ => ?_
    have h := h₁.trans_takes h₂
    refine (ifStuck_skip_passes hT (hcolumn ▸ hright) h).mono fun _ s₃ h₃ => ?_
    refine (skipStray_passes hT s₃).mono fun _ s₄ h₄ => ?_
    have h := (h.passes h₃).passes h₄
    refine yields_atStatement column s₄ _ fun found hfound => ?_
    cases found with
    | false => exact h
    | true =>
      simp only [if_true, yields_bind, yields_pure]
      refine (ih.statements column s₄ (h.le_offside hc) hright (hfound rfl).2).mono
        fun second s₅ h₅ => ?_
      exact (h.trans h₅).mono fun x => (Expr.hasLetAt_sequential _ _ _ x).mpr

theorem expr_takes (ih : ExprsTake T c n) (hc : c ≤ s.offside) :
    (expr (n + 1)).Yields s fun e => Takes T e.HasLetAt s := by
  simp only [expr, yields_bind]
  refine (ih.simpleExpr s hc).mono fun first s₁ h₁ => ?_
  refine (ih.tupleItems s₁ (h₁.le_offside hc)).mono fun more s₂ h₂ => ?_
  split
  case h_1 =>
    simp only [yields_pure]
    refine (h₁.trans h₂).mono fun x hx => ?_
    simpa using hx
  case h_2 hmore =>
    simp only [yields_pure]
    refine (h₁.trans h₂).mono fun x hx => ?_
    simpa [List.getLast?_eq_none_iff.mp hmore] using hx

theorem tupleItems_takes (hT : Resuming T c) (ih : ExprsTake T c n) (hc : c ≤ s.offside) :
    (tupleItems (n + 1)).Yields s fun es => Takes T (fun x => ∃ e ∈ es, e.HasLetAt x) s := by
  simp only [tupleItems, yields_bind, yields_get]
  split
  case isTrue hcomma =>
    simp only [yields_bind, yields_skip, yields_pure]
    have h₁ : Passes T s s.advance := passes_advance (hT.not_current (peek_of_test hcomma) rfl)
    refine (ih.simpleExpr _ (h₁.le_offside hc)).mono fun item s₂ h₂ => ?_
    have h := h₁.trans_takes h₂
    refine (ih.tupleItems s₂ (h.le_offside hc)).mono fun more s₃ h₃ => ?_
    simpa using h.trans h₃
  case isFalse => exact pure_takes _ s

theorem simpleExpr_takes (ih : ExprsTake T c n) (hc : c ≤ s.offside) :
    (simpleExpr (n + 1)).Yields s fun e => Takes T e.HasLetAt s := by
  simp only [simpleExpr, yields_bind, yields_get]
  split
  case h_1 hlet =>
    simp only [yields_bind, yields_get]
    refine (binding_lets ih hc hlet).mono fun b s₁ h₁ => ?_
    split
    case isTrue hin =>
      refine (ih.letScope b s₁ (h₁.le_offside hc) hin).mono fun e s₂ ⟨h₂, hb⟩ => ?_
      exact (h₁.trans h₂).mono fun x hx => hx.elim (hb x) id
    case isFalse =>
      simp only [yields_bind, yields_error, yields_pure]
      exact (h₁.passes (passes_report s₁ _)).mono fun x hx => hx.letIn _ _
  case h_2 hif => exact ih.conditional s hc hif
  case h_3 hfun => exact ih.lambda s hc hfun
  case h_4 => exact ih.operand 0 s hc

theorem conditional_takes (hT : Resuming T c) (ih : ExprsTake T c n) (hc : c ≤ s.offside)
    (hif : s.peek = .keyword .ifKw) :
    (conditional (n + 1)).Yields s fun e => Takes T e.HasLetAt s := by
  simp only [conditional, yields_bind, yields_bump, yields_get, yields_pure]
  have h : Passes T s s.advance := passes_advance (hT.not_current hif rfl)
  refine (ih.expr _ (h.le_offside hc)).mono fun condition s₁ h₁ => ?_
  have h := h.trans_takes h₁
  refine (thenPart_takes hT (h.le_offside hc) ih.body).mono fun thenBranch s₂ h₂ => ?_
  have h := h.trans h₂
  refine (elsePart_takes hT (h.le_offside hc) ih.body).mono fun elseBranch s₃ h₃ => ?_
  refine (h.trans h₃).mono fun x hx => ?_
  rw [Expr.hasLetAt_conditional, ← or_assoc]
  exact hx

theorem lambda_takes (hT : Resuming T c) (ih : ExprsTake T c n) (hc : c ≤ s.offside)
    (hfun : s.peek = .keyword .funKw) :
    (lambda (n + 1)).Yields s fun e => Takes T e.HasLetAt s := by
  simp only [lambda, yields_bind, yields_bump, yields_get, yields_pure]
  have h : Passes T s s.advance := passes_advance (hT.not_current hfun rfl)
  refine (params_passes hT n _).mono fun parameters s₁ h₁ => ?_
  refine (when_passes (T := T) (missing_passes _ s₁)).mono fun _ s₂ h₂ => ?_
  have h := (h.trans h₁).trans h₂
  refine (behind_takes hT rfl (h.le_offside hc) ih.body).mono fun value s₃ h₃ => ?_
  exact (h.trans_takes h₃).mono fun x => (Expr.hasLetAt_lambda _ _ _ x).mpr

theorem operand_takes (ih : ExprsTake T c n) (power : Nat) (hc : c ≤ s.offside) :
    (operand (n + 1) power).Yields s fun e => Takes T e.HasLetAt s := by
  simp only [operand, yields_bind]
  refine (ih.unary s hc).mono fun lhs s₁ h₁ => ?_
  refine (ih.operations power lhs s₁ (h₁.le_offside hc)).mono fun e s₂ ⟨h₂, hlhs⟩ => ?_
  exact (h₁.trans h₂).mono fun x hx => hx.elim (hlhs x) id

theorem infixOperator?_not_opens {token : Token} {o : BinaryOp × Nat × Nat}
    (h : infixOperator? token = some o) : token.opensDecl = false := by
  unfold infixOperator? at h
  split at h <;> first | rfl | cases h

theorem operations_takes (hT : Resuming T c) (ih : ExprsTake T c n) (power : Nat) (lhs : Expr)
    (hc : c ≤ s.offside) :
    (operations (n + 1) power lhs).Yields s fun e s' =>
      Takes T e.HasLetAt s s' ∧ ∀ x, lhs.HasLetAt x → e.HasLetAt x := by
  simp only [operations, yields_bind, yields_get]
  split
  case h_1 => exact ⟨(Passes.refl s).takes, fun _ => id⟩
  case h_2 op left right hop =>
    split
    case isTrue => exact ⟨(Passes.refl s).takes, fun _ => id⟩
    case isFalse =>
      simp only [yields_bind, yields_bump]
      have h : Passes T s s.advance :=
        passes_advance (hT.not_current rfl (infixOperator?_not_opens hop))
      have hc := h.le_offside hc
      refine (rightOperand_takes (ih.simpleExpr _ hc) (ih.operand right _ hc)).mono fun rhs s₁ h₁ => ?_
      refine (ih.operations power _ s₁ (h₁.le_offside hc)).mono fun e s₂ ⟨h₂, hboth⟩ => ⟨?_, ?_⟩
      · refine (h.trans_takes (h₁.trans h₂)).mono fun x hx => ?_
        rcases hx with hx | hx
        · exact hboth x (by simp [hx])
        · exact hx
      · intro x hx
        exact hboth x (by simp [hx])

theorem unary_takes (hT : Resuming T c) (ih : ExprsTake T c n) (hc : c ≤ s.offside) :
    (unary (n + 1)).Yields s fun e => Takes T e.HasLetAt s := by
  simp only [unary, yields_bind, yields_get]
  split
  case isTrue hminus =>
    simp only [yields_bind, yields_bump, yields_pure]
    have h : Passes T s s.advance := passes_advance (hT.not_current (peek_of_test hminus) rfl)
    refine (ih.unary _ (h.le_offside hc)).mono fun inner s₁ h₁ => ?_
    exact (h.trans_takes h₁).mono fun x => (Expr.hasLetAt_neg _ _ x).mpr
  case isFalse =>
    simp only [yields_bind]
    refine (ih.accessed s hc).mono fun function s₁ h₁ => ?_
    refine (ih.arguments function s₁ (h₁.le_offside hc)).mono fun e s₂ ⟨h₂, hfunction⟩ => ?_
    exact (h₁.trans h₂).mono fun x hx => hx.elim (hfunction x) id

theorem arguments_takes (ih : ExprsTake T c n) (function : Expr) (hc : c ≤ s.offside) :
    (arguments (n + 1) function).Yields s fun e s' =>
      Takes T e.HasLetAt s s' ∧ ∀ x, function.HasLetAt x → e.HasLetAt x := by
  simp only [arguments, yields_bind, yields_get]
  split
  case isTrue =>
    simp only [yields_bind]
    refine (ih.accessed s hc).mono fun argument s₁ h₁ => ?_
    refine (ih.arguments _ s₁ (h₁.le_offside hc)).mono fun e s₂ ⟨h₂, hboth⟩ => ⟨?_, ?_⟩
    · refine (h₁.trans h₂).mono fun x hx => ?_
      rcases hx with hx | hx
      · exact hboth x (by simp [hx])
      · exact hx
    · intro x hx
      exact hboth x (by simp [hx])
  case isFalse => exact ⟨(Passes.refl s).takes, fun _ => id⟩

theorem accessed_takes (ih : ExprsTake T c n) (hc : c ≤ s.offside) :
    (accessed (n + 1)).Yields s fun e => Takes T e.HasLetAt s := by
  simp only [accessed, yields_bind]
  refine (ih.atom s hc).mono fun target s₁ h₁ => ?_
  refine (ih.accesses target s₁ (h₁.le_offside hc)).mono fun e s₂ ⟨h₂, htarget⟩ => ?_
  exact (h₁.trans h₂).mono fun x hx => hx.elim (htarget x) id

theorem accesses_takes (hT : Resuming T c) (ih : ExprsTake T c n) (target : Expr)
    (hc : c ≤ s.offside) :
    (accesses (n + 1) target).Yields s fun e s' =>
      Takes T e.HasLetAt s s' ∧ ∀ x, target.HasLetAt x → e.HasLetAt x := by
  simp only [accesses, yields_bind, yields_get]
  split
  case h_1 hdot =>
    split
    case isTrue => exact ⟨(Passes.refl s).takes, fun _ => id⟩
    case isFalse =>
      simp only [yields_bind, yields_bump]
      have h : Passes T s s.advance := passes_advance (hT.not_current hdot rfl)
      refine (memberName?_passes hT _).mono fun name s₁ h₁ => ?_
      have h := h.trans h₁
      cases name with
      | some name =>
        refine (ih.accesses _ s₁ (h.le_offside hc)).mono fun e s₂ ⟨h₂, hmember⟩ => ?_
        exact ⟨h.trans_takes h₂, fun x hx => hmember x (by simp [hx])⟩
      | none =>
        simp only [yields_bind, yields_report]
        have h := h.trans (passes_report s₁
          { cause := .expectedMemberName, span := s.current.span, context := some "after member access" })
        refine (ih.accesses _ _ (h.le_offside hc)).mono fun e s₂ ⟨h₂, hmember⟩ => ?_
        exact ⟨h.trans_takes h₂, fun x hx => hmember x (by simp [hx])⟩
  case h_2 hopen =>
    split
    case isTrue => exact ⟨(Passes.refl s).takes, fun _ => id⟩
    case isFalse =>
      simp only [yields_bind, yields_bump]
      have h : Passes T s s.advance := passes_advance (hT.not_current hopen rfl)
      refine (nested_takes (ih.callArguments _ (h.le_offside hc))).mono fun args s₁ h₁ => ?_
      refine (parentheses_passes (T := T) _ args.2 s₁).mono fun parens s₂ h₂ => ?_
      have h := (h.trans_takes h₁).passes h₂
      refine (ih.accesses _ s₂ (h.le_offside hc)).mono fun e s₃ ⟨h₃, hcall⟩ => ⟨?_, ?_⟩
      · refine (h.trans h₃).mono fun x hx => ?_
        rcases hx with hx | hx
        · exact hcall x (by simp [hx])
        · exact hx
      · intro x hx
        exact hcall x (by simp [hx])
  case h_3 => exact ⟨(Passes.refl s).takes, fun _ => id⟩

theorem callArguments_takes (hT : Resuming T c) (ih : ExprsTake T c n) (hc : c ≤ s.offside) :
    (callArguments (n + 1)).Yields s fun r => Takes T (fun x => ∃ e ∈ r.1, e.HasLetAt x) s := by
  simp only [callArguments, yields_bind]
  refine (eat_passes hT rfl s).mono fun found s₁ h₁ => ?_
  cases found with
  | some close =>
    simp only [yields_pure]
    exact h₁.takes
  | none =>
    simp only [yields_bind, yields_get]
    split
    case isTrue =>
      simp only [yields_pure]
      exact h₁.takes
    case isFalse =>
      simp only [yields_bind]
      refine (ih.simpleExpr s₁ (h₁.le_offside hc)).mono fun arg s₂ h₂ => ?_
      refine (eat_passes hT rfl s₂).mono fun found s₃ h₃ => ?_
      have h := (h₁.trans_takes h₂).passes h₃
      have hmore := ih.callArguments s₃ (h.le_offside hc)
      cases found with
      | some comma =>
        simp only [yields_bind, yields_pure]
        refine hmore.mono fun more s₄ h₄ => (h.trans h₄).mono fun x hx => ?_
        simpa using hx
      | none =>
        simp only [yields_bind, yields_get]
        split
        case isTrue =>
          simp only [yields_pure]
          refine h.mono fun x hx => ?_
          simpa using hx
        case isFalse =>
          simp only [yields_bind, yields_pure]
          refine hmore.mono fun more s₄ h₄ => (h.trans h₄).mono fun x hx => ?_
          simpa using hx

theorem literalAtom_takes (hT : Resuming T c) (s : ParserState) :
    (do
      match ← literal? s.current with
      | some value =>
        skip
        return .literal s.current.span value
      | none =>
        error .expectedExpression s.current.span
        return .error (.empty s.current.span.start) : Parser Expr).Yields s fun e =>
      Takes T e.HasLetAt s := by
  simp only [yields_bind]
  refine (literal?_passes (T := T) s.current s).mono fun value s₁ ⟨h₁, hcurrent, hvalue⟩ => ?_
  cases value with
  | some value =>
    simp only [yields_bind, yields_skip, yields_pure]
    have hpeek : s₁.peek.opensDecl = false := by
      rw [ParserState.peek, hcurrent]
      exact hvalue rfl
    exact (h₁.trans (passes_advance (hT.not_current rfl hpeek))).takes
  | none =>
    simp only [yields_bind, yields_error, yields_pure]
    exact (h₁.trans (passes_report s₁ _)).takes

theorem atom_takes (hT : Resuming T c) (ih : ExprsTake T c n) (hc : c ≤ s.offside) :
    (atom (n + 1)).Yields s fun e => Takes T e.HasLetAt s := by
  simp only [atom, yields_bind, yields_get]
  split
  case isTrue => exact missingExpr_takes s
  case isFalse =>
    split
    case h_1 text hname =>
      simp only [yields_bind, yields_skip, yields_pure]
      have h : Passes T s s.advance := passes_advance (hT.not_current hname rfl)
      exact h.takes
    case h_2 hopen => exact ih.parenthesised s hc hopen
    case h_3 hopen =>
      simp only [yields_bind, yields_pure]
      have hitem : ∀ s, c ≤ s.offside → (some <$> expr n).Yields s fun e? =>
          Takes T (fun x => ∃ e ∈ e?, e.HasLetAt x) s := by
        intro s hc
        rw [yields_map]
        exact (ih.expr s hc).mono fun e s₁ h₁ => h₁.mono fun x hx => ⟨e, rfl, hx⟩
      refine (bracketed_takes hT hitem n hc hopen rfl).mono fun r s₁ h₁ => ?_
      exact h₁.mono fun x => (Expr.hasLetAt_list _ _ x).mpr
    case h_4 hopen =>
      simp only [yields_bind, yields_pure]
      refine (bracketed_takes hT ih.recordField n hc hopen rfl).mono fun r s₁ h₁ => ?_
      exact h₁.mono fun x => (Expr.hasLetAt_record _ _ x).mpr
    case h_5 => exact ih.simpleExpr s hc
    case h_6 => exact ih.simpleExpr s hc
    case h_7 => exact ih.simpleExpr s hc
    case h_8 => exact literalAtom_takes hT s

theorem parenthesised_takes (hT : Resuming T c) (ih : ExprsTake T c n) (hc : c ≤ s.offside)
    (hopen : s.peek = .punct .lparen) :
    (parenthesised (n + 1)).Yields s fun e => Takes T e.HasLetAt s := by
  simp only [parenthesised, yields_bind, yields_bump]
  have h : Passes T s s.advance := passes_advance (hT.not_current hopen rfl)
  refine (eat_passes hT rfl _).mono fun found s₁ h₁ => ?_
  have h := h.trans h₁
  cases found with
  | some close =>
    simp only [yields_pure]
    exact h.takes
  | none =>
    simp only [yields_bind, yields_pure]
    refine (nested_takes (ih.annotated _ (h.le_offside hc))).mono fun inner s₂ h₂ => ?_
    refine (closing_passes hT _ _ s₂).mono fun stop s₃ h₃ => ?_
    exact ((h.trans_takes h₂).passes h₃).mono fun x => (Expr.hasLetAt_paren _ _ x).mpr

theorem annotated_takes (hT : Resuming T c) (ih : ExprsTake T c n) (hc : c ≤ s.offside) :
    (annotated (n + 1)).Yields s fun e => Takes T e.HasLetAt s := by
  simp only [annotated, yields_bind, yields_get]
  refine (ih.expr s hc).mono fun inner s₁ h₁ => ?_
  split
  case isTrue hcolon =>
    simp only [yields_bind, yields_skip, yields_pure]
    have h₂ : Passes T s₁ s₁.advance := passes_advance (hT.not_current (peek_of_test hcolon) rfl)
    refine ((typesPass hT n).type _).mono fun annotation s₃ h₃ => ?_
    exact ((h₁.passes h₂).passes h₃).mono fun x => (Expr.hasLetAt_typed _ _ _ x).mpr
  case isFalse => exact h₁

theorem recordField_takes (hT : Resuming T c) (ih : ExprsTake T c n) (hc : c ≤ s.offside) :
    (recordField (n + 1)).Yields s fun f? => Takes T (fun x => ∃ f ∈ f?, f.2.HasLetAt x) s := by
  simp only [recordField, yields_bind]
  refine (ident?_passes hT s).mono fun name s₁ h₁ => ?_
  cases name with
  | none =>
    simp only [yields_pure]
    exact h₁.takes
  | some name =>
    simp only [yields_bind, yields_pure]
    refine (behind_takes hT rfl (h₁.le_offside hc) ih.expr).mono fun value s₂ h₂ => ?_
    exact (h₁.trans_takes h₂).mono fun x hx => ⟨(name, value), rfl, hx⟩

theorem exprsTake (hT : Resuming T c) (n : Nat) : ExprsTake T c n := by
  induction n with
  | zero =>
    have hmissing : ∀ s, c ≤ s.offside → missingExpr.Yields s fun e => Takes T e.HasLetAt s :=
      fun s _ => missingExpr_takes s
    have hnothing : ∀ {A : Nat → Prop} (s : ParserState), Takes T A s s :=
      fun s => (Passes.refl s).takes
    exact {
      binding := fun s _ _ => (yields_get s _).mpr (hnothing s)
      letScope := fun b s _ _ => ⟨hnothing s, fun x hx => hx.letIn _ _⟩
      body := hmissing
      statements := fun _ s hc _ _ => hmissing s hc
      expr := hmissing
      tupleItems := fun s _ => pure_takes [] s
      simpleExpr := hmissing
      conditional := fun s hc _ => hmissing s hc
      lambda := fun s hc _ => hmissing s hc
      operand := fun _ => hmissing
      operations := fun _ _ s _ => ⟨hnothing s, fun _ => id⟩
      unary := hmissing
      arguments := fun _ s _ => ⟨hnothing s, fun _ => id⟩
      accessed := hmissing
      accesses := fun _ s _ => ⟨hnothing s, fun _ => id⟩
      callArguments := fun s _ => pure_takes ([], none) s
      atom := hmissing
      parenthesised := fun s hc _ => hmissing s hc
      annotated := hmissing
      recordField := fun s _ => pure_takes none s }
  | succ n ih =>
    exact {
      binding := fun _ hc _ => binding_takes hT ih hc
      letScope := fun b _ hc hin => letScope_takes hT ih b hc hin
      body := fun _ hc => body_takes ih hc
      statements := fun column _ hc => statements_takes hT ih column hc
      expr := fun _ hc => expr_takes ih hc
      tupleItems := fun _ hc => tupleItems_takes hT ih hc
      simpleExpr := fun _ hc => simpleExpr_takes ih hc
      conditional := fun _ hc => conditional_takes hT ih hc
      lambda := fun _ hc => lambda_takes hT ih hc
      operand := fun power _ hc => operand_takes ih power hc
      operations := fun power lhs _ hc => operations_takes hT ih power lhs hc
      unary := fun _ hc => unary_takes hT ih hc
      arguments := fun function _ hc => arguments_takes ih function hc
      accessed := fun _ hc => accessed_takes ih hc
      accesses := fun target _ hc => accesses_takes hT ih target hc
      callArguments := fun _ hc => callArguments_takes hT ih hc
      atom := fun _ hc => atom_takes hT ih hc
      parenthesised := fun _ hc => parenthesised_takes hT ih hc
      annotated := fun _ hc => annotated_takes hT ih hc
      recordField := fun _ hc => recordField_takes hT ih hc }

end Parser
end ScriptAnalyzer

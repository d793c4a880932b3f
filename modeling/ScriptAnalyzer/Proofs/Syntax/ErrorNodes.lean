import ScriptAnalyzer.Proofs.Syntax.Marking

/-!
Every error node of a tree stands for a recorded error: a text that is read without errors has a
whole tree.
-/

namespace ScriptAnalyzer

attribute [grind =] Expr.isWhole

namespace Parser

open ParserState

variable {α : Type} {P : α → Prop}

/-! Expressions -/

theorem missingExpr_marks : missingExpr.Marks (·.isWhole) :=
  .next .get fun _ => .reported (error_marks _ _) fun _ => .pure trivial

theorem errorHere_marks : errorHere.Marks fun _ => True := .next .get fun _ => .pure trivial

theorem behind_marks {token : Token} {what : String} {p : Parser Expr} (hp : p.Marks (·.isWhole)) :
    (behind token what p).Marks (·.isWhole) := by
  refine .bind (expect_marks token what) fun found => ?_
  cases found with
  | some span => exact hp.imp fun _ h _ => h
  | none => exact errorHere_marks.imp fun _ _ h => nomatch h

theorem literal?_marks (t : LaidToken) : (literal? t).Marks fun _ => True := by
  unfold literal?
  split
  case h_1 =>
    refine .ite (.pure trivial) ?_
    exact .next (error_marks _ _).trivially fun _ => .pure trivial
  all_goals exact .pure trivial

theorem atStatement_marks (column : Nat) : (atStatement column).Marks fun _ => True :=
  .next .get fun _ => .pure trivial

theorem sequenceItems_marks {close : Punct} {unclosed : SyntaxError} {item : Parser (Option α)}
    (hitem : item.Marks fun found => ∀ a ∈ found, P a) (n : Nat) :
    (sequenceItems close unclosed item n).Marks fun r => ∀ a ∈ r.1, P a := by
  induction n with
  | zero => exact .next .get fun _ => .pure nofun
  | succ n ih =>
    refine .next (eat_marks _) fun found => ?_
    cases found with
    | some span => exact .pure nofun
    | none =>
      refine .next .get fun s => .ite ?_ (.next (eat_marks _) fun found => ?_)
      · exact .reported (report_marks _) fun _ => .pure trivial
      · cases found with
        | some span => exact ih
        | none =>
          refine .next setAnchor_marks fun _ => .bind hitem fun found => ?_
          refine .next (ifStuck_marks reject_marks.trivially) fun _ => .bind ih fun r => .pure ?_
          intro hr hfound a ha
          rcases List.mem_append.mp ha with ha | ha
          · exact hfound a (Option.mem_toList.mp ha)
          · exact hr a ha

theorem bracketed_marks {close : Punct} {delimiter : Char} {item : Parser (Option α)}
    (hitem : item.Marks fun found => ∀ a ∈ found, P a) (n : Nat) :
    (bracketed close delimiter item n).Marks fun r => ∀ a ∈ r.1, P a :=
  .next bump_marks fun _ => .next .get fun _ =>
    nested_marks (withOffside_marks (sequenceItems_marks hitem n))

theorem bindingPattern_marks {p : Parser Pattern} (hp : p.Marks (·.isWhole)) :
    (bindingPattern p).Marks (·.isWhole) := by
  refine .next .get fun s => ?_
  split
  · exact hp
  · exact hp
  · exact .reported (missing_marks _) fun _ => .next .get fun _ => .pure trivial

theorem blockRest_marks {column : Nat} {b : Binding} {p : Parser Expr} (hp : p.Marks (·.isWhole)) :
    (blockRest column b p).Marks (·.isWhole) :=
  .next (atStatement_marks column) fun _ =>
    .ite hp (.reported (report_marks _) fun _ => errorHere_marks)

theorem thenPart_marks {p : Parser Expr} (hp : p.Marks (·.isWhole)) :
    (thenPart p).Marks (·.isWhole) :=
  .next .get fun _ =>
    .ite (.reported (missing_marks _) fun _ => errorHere_marks) (behind_marks hp)

theorem elsePart_marks {p : Parser Expr} (hp : p.Marks (·.isWhole)) :
    (elsePart p).Marks fun branch => ∀ e ∈ branch, e.isWhole = true := by
  refine .next .get fun s => .ite ?_ (.pure nofun)
  exact .next skip_marks fun _ => .bind hp fun e => .pure fun he f hf => Option.mem_some.mp hf ▸ he

theorem rightOperand_marks {openExpr closed : Parser Expr} (hopen : openExpr.Marks (·.isWhole))
    (hclosed : closed.Marks (·.isWhole)) : (rightOperand openExpr closed).Marks (·.isWhole) :=
  .next .get fun _ => .ite hopen hclosed

theorem memberName?_marks : memberName?.Marks fun _ => True :=
  .next .get fun _ => .ite (.pure trivial) ident?_marks

theorem parentheses_marks (opener : Span) (close : Option Span) :
    (parentheses opener close).Marks fun _ => True := by
  cases close with
  | none => exact .next (report_marks _).trivially fun _ => .next .get fun _ => .pure trivial
  | some close => exact .pure trivial

structure ExprsMark (n : Nat) : Prop where
  binding : (binding n).Marks (·.isWhole)
  /-- Without any depth the scope of a binding is an error, but then no binding is read either. -/
  letScope : ∀ b, 0 < n → (letScope n b).Marks fun e => b.isWhole → e.isWhole
  body : (body n).Marks (·.isWhole)
  statements : ∀ column, (statements n column).Marks (·.isWhole)
  expr : (expr n).Marks (·.isWhole)
  tupleItems : (tupleItems n).Marks fun es => Expr.areWhole es
  simpleExpr : (simpleExpr n).Marks (·.isWhole)
  conditional : (conditional n).Marks (·.isWhole)
  lambda : (lambda n).Marks (·.isWhole)
  operand : ∀ power, (operand n power).Marks (·.isWhole)
  operations : ∀ power lhs, (operations n power lhs).Marks fun e => lhs.isWhole → e.isWhole
  unary : (unary n).Marks (·.isWhole)
  arguments : ∀ function, (arguments n function).Marks fun e => function.isWhole → e.isWhole
  accessed : (accessed n).Marks (·.isWhole)
  accesses : ∀ target, (accesses n target).Marks fun e => target.isWhole → e.isWhole
  callArguments : (callArguments n).Marks fun r => Expr.areWhole r.1
  atom : (atom n).Marks (·.isWhole)
  parenthesised : (parenthesised n).Marks (·.isWhole)
  annotated : (annotated n).Marks (·.isWhole)
  recordField : (recordField n).Marks fun field => ∀ f ∈ field, f.2.isWhole = true

section

variable {n : Nat}

theorem binding_marks (ih : ExprsMark n) : (binding (n + 1)).Marks (·.isWhole) := by
  refine .next bump_marks fun letToken => .next (eat_marks _) fun recToken => ?_
  refine .bind (bindingPattern_marks (patternsMark n).atomicPattern) fun pattern => ?_
  refine .bind (params_marks n) fun parameters => ?_
  refine .next (when_marks (error_marks _ _).trivially) fun _ => ?_
  refine .bind (behind?_marks (typesMark n).type) fun returnType => ?_
  refine .bind (behind_marks ih.body) fun value => .next .get fun s => .pure ?_
  intro hvalue hreturn hparams hpattern
  have hreturn : returnType.all (·.isWhole) = true := by
    cases returnType with
    | none => rfl
    | some t => exact hreturn t rfl
  simp [Binding.isWhole, LetHead.isWhole, hpattern, hparams, hreturn, hvalue]

/-- A binding with what stands behind it, which is `scope` behind the keyword `in`. -/
theorem bound_marks (ih : ExprsMark n) {scope rest : Binding → Parser α}
    (hscope : 0 < n → ∀ b, (scope b).Marks fun a => b.isWhole = true → P a)
    (hrest : ∀ b, (rest b).Marks fun a => b.isWhole = true → P a)
    {s : ParserState} (hlet : s.peek = .keyword .letKw) :
    (do
      let b ← binding n
      if (← get).peek = .keyword .inKw then scope b else rest b : Parser α).Yields s fun a =>
        ParserState.Marks (P a) s := by
  cases n with
  | zero =>
    simp only [binding, yields_bind, yields_pure, yields_get, hlet]
    exact (hrest _ s).mono fun a s₁ h₁ => h₁.imp fun h => h rfl
  | succ n =>
    exact Marks.bind ih.binding (fun b => .next .get fun _ =>
      .ite (hscope (Nat.succ_pos n) b) (hrest b)) s

theorem letScope_marks (ih : ExprsMark n) (b : Binding) :
    (letScope (n + 1) b).Marks fun e => b.isWhole → e.isWhole := by
  refine .next skip_marks fun _ => .bind ih.body fun scope => .pure fun hscope hb => ?_
  simpa [Expr.isWhole, Binding.isWhole, hscope] using hb

theorem body_marks (ih : ExprsMark n) : (body (n + 1)).Marks (·.isWhole) :=
  .next .get fun _ => .ite missingExpr_marks (.ite (withOffside_marks (ih.statements _)) ih.expr)

theorem statements_marks (ih : ExprsMark n) (column : Nat) :
    (statements (n + 1) column).Marks (·.isWhole) := by
  intro s
  simp only [statements]
  rw [yields_bind, yields_get]
  split
  case isTrue hlet =>
    refine bound_marks ih (fun hn b => ih.letScope b hn) (fun b => ?_) hlet
    refine .next skipStray_marks fun _ => .bind (blockRest_marks (ih.statements column)) fun scope => ?_
    refine .pure fun hscope hb => ?_
    simpa [Expr.isWhole, Binding.isWhole, hscope] using hb
  case isFalse =>
    suffices h : Marks _ _ from h s
    refine .next .get fun _ => .next setAnchor_marks fun _ => .bind ih.expr fun first => ?_
    refine .next (ifStuck_marks skip_marks) fun _ => .next skipStray_marks fun _ => ?_
    refine .next (atStatement_marks column) fun _ => .ite ?_ (.pure id)
    refine .bind (ih.statements column) fun second => .pure fun hsecond hfirst => ?_
    simp [Expr.isWhole, hfirst, hsecond]

theorem expr_marks (ih : ExprsMark n) : (expr (n + 1)).Marks (·.isWhole) := by
  refine .bind ih.simpleExpr fun first => .bind ih.tupleItems fun more => ?_
  split
  · refine .pure fun hmore hfirst => ?_
    simp [Expr.isWhole, Expr.areWhole, hfirst, hmore]
  · exact .pure fun _ => id

theorem tupleItems_marks (ih : ExprsMark n) :
    (tupleItems (n + 1)).Marks fun es => Expr.areWhole es := by
  refine .next .get fun s => .ite ?_ (.pure rfl)
  refine .next skip_marks fun _ => .bind ih.simpleExpr fun item => .bind ih.tupleItems fun more => ?_
  exact .pure fun hmore hitem => by simp [Expr.areWhole, hitem, hmore]

theorem simpleExpr_marks (ih : ExprsMark n) : (simpleExpr (n + 1)).Marks (·.isWhole) := by
  intro s
  simp only [simpleExpr]
  rw [yields_bind, yields_get]
  split
  case h_1 hlet =>
    refine bound_marks ih (fun hn b => ih.letScope b hn) (fun b => ?_) hlet
    exact .reported (error_marks _ _) fun _ => .pure trivial
  case h_2 => exact ih.conditional s
  case h_3 => exact ih.lambda s
  case h_4 => exact ih.operand 0 s

theorem conditional_marks (ih : ExprsMark n) : (conditional (n + 1)).Marks (·.isWhole) := by
  refine .next bump_marks fun _ => .bind ih.expr fun condition => ?_
  refine .bind (thenPart_marks ih.body) fun thenBranch => ?_
  refine .bind (elsePart_marks ih.body) fun elseBranch => .next .get fun s => .pure ?_
  intro helse hthen hcondition
  cases elseBranch with
  | none => simp [Expr.isWhole, hcondition, hthen]
  | some branch => simp [Expr.isWhole, hcondition, hthen, helse branch rfl]

theorem lambda_marks (ih : ExprsMark n) : (lambda (n + 1)).Marks (·.isWhole) := by
  refine .next bump_marks fun _ => .bind (params_marks n) fun parameters => ?_
  refine .next (when_marks (missing_marks _).trivially) fun _ => ?_
  refine .bind (behind_marks ih.body) fun value => .next .get fun s => .pure fun hvalue hparams => ?_
  simp [Expr.isWhole, hparams, hvalue]

theorem operand_marks (ih : ExprsMark n) (power : Nat) : (operand (n + 1) power).Marks (·.isWhole) :=
  .bind ih.unary fun lhs => ih.operations power lhs

theorem operations_marks (ih : ExprsMark n) (power : Nat) (lhs : Expr) :
    (operations (n + 1) power lhs).Marks fun e => lhs.isWhole → e.isWhole := by
  refine .next .get fun s => ?_
  split
  · exact .pure id
  · refine .ite (.pure id) (.next bump_marks fun opToken => ?_)
    refine .bind (rightOperand_marks ih.simpleExpr (ih.operand _)) fun rhs => ?_
    refine (ih.operations power _).imp fun e he hrhs hlhs => he ?_
    simp [Expr.isWhole, hlhs, hrhs]

theorem unary_marks (ih : ExprsMark n) : (unary (n + 1)).Marks (·.isWhole) := by
  refine .next .get fun s => .ite ?_ (.bind ih.accessed fun function => ih.arguments function)
  exact .next bump_marks fun _ => .bind ih.unary fun inner => .pure id

theorem arguments_marks (ih : ExprsMark n) (function : Expr) :
    (arguments (n + 1) function).Marks fun e => function.isWhole → e.isWhole := by
  refine .next .get fun s => .ite (.bind ih.accessed fun argument => ?_) (.pure id)
  refine (ih.arguments _).imp fun e he hargument hfunction => he ?_
  simp [Expr.isWhole, hfunction, hargument]

theorem accessed_marks (ih : ExprsMark n) : (accessed (n + 1)).Marks (·.isWhole) :=
  .bind ih.atom fun target => ih.accesses target

theorem accesses_marks (ih : ExprsMark n) (target : Expr) :
    (accesses (n + 1) target).Marks fun e => target.isWhole → e.isWhole := by
  refine .next .get fun s => ?_
  split
  · refine .ite (.pure id) (.next bump_marks fun dot => .next memberName?_marks fun name => ?_)
    cases name with
    | some name => exact (ih.accesses _).imp fun e he htarget => he (by simp [Expr.isWhole, htarget])
    | none => exact .reported (report_marks _) fun _ => (ih.accesses _).trivially
  · refine .ite (.pure id) (.next bump_marks fun opener => ?_)
    refine .bind (nested_marks ih.callArguments) fun args => ?_
    refine .next (parentheses_marks _ _) fun parens => ?_
    refine (ih.accesses _).imp fun e he hargs htarget => he ?_
    simp [Expr.isWhole, htarget, hargs]
  · exact .pure id

theorem callArguments_marks (ih : ExprsMark n) :
    (callArguments (n + 1)).Marks fun r => Expr.areWhole r.1 := by
  refine .next (eat_marks _) fun close => ?_
  cases close with
  | some close => exact .pure rfl
  | none =>
    refine .next .get fun s => .ite (.pure rfl) (.bind ih.simpleExpr fun arg => ?_)
    have hmore : (callArgumentsFrom n arg).Marks fun r => arg.isWhole = true → Expr.areWhole r.1 := by
      refine .bind ih.callArguments fun more => .pure fun hmore harg => ?_
      simp [Expr.areWhole, harg, hmore]
    refine .next (eat_marks _) fun comma => ?_
    cases comma with
    | some comma => exact hmore
    | none =>
      refine .next .get fun s' => .ite (.pure fun harg => ?_) hmore
      simp [Expr.areWhole, harg]

theorem atom_marks (ih : ExprsMark n) : (atom (n + 1)).Marks (·.isWhole) := by
  refine .next .get fun s => .ite missingExpr_marks ?_
  dsimp only
  split
  · exact .next skip_marks fun _ => .pure rfl
  · exact ih.parenthesised
  · have hitem : (some <$> expr n).Marks fun found => ∀ e ∈ found, e.isWhole = true := by
      intro s
      rw [yields_map]
      refine (ih.expr s).mono fun e _ h => h.imp fun he f hf => ?_
      exact Option.mem_some.mp hf ▸ he
    refine .bind (bracketed_marks hitem n) fun r => .pure fun hr => ?_
    exact Expr.areWhole_iff.mpr hr
  · refine .bind (bracketed_marks ih.recordField n) fun r => .pure fun hr => ?_
    exact Expr.fieldsWhole_iff.mpr hr
  · exact ih.simpleExpr
  · exact ih.simpleExpr
  · exact ih.simpleExpr
  · refine .next (literal?_marks _) fun value => ?_
    cases value with
    | some value => exact .next skip_marks fun _ => .pure rfl
    | none => exact .reported (error_marks _ _) fun _ => .pure trivial

theorem parenthesised_marks (ih : ExprsMark n) : (parenthesised (n + 1)).Marks (·.isWhole) := by
  refine .next bump_marks fun opener => .next (eat_marks _) fun close => ?_
  cases close with
  | some close => exact .pure rfl
  | none =>
    refine .bind (nested_marks ih.annotated) fun inner => ?_
    exact .next (closing_marks _ _) fun stop => .pure id

theorem annotated_marks (ih : ExprsMark n) : (annotated (n + 1)).Marks (·.isWhole) := by
  refine .bind ih.expr fun inner => .next .get fun s => .ite ?_ (.pure id)
  refine .next skip_marks fun _ => .bind (typesMark n).type fun annotation => .pure ?_
  intro hannotation hinner
  simp [Expr.isWhole, hinner, hannotation]

theorem recordField_marks (ih : ExprsMark n) :
    (recordField (n + 1)).Marks fun field => ∀ f ∈ field, f.2.isWhole = true := by
  refine .next ident?_marks fun name => ?_
  cases name with
  | none => exact .pure nofun
  | some name =>
    refine .bind (behind_marks ih.expr) fun value => .pure fun hvalue f hf => ?_
    exact Option.mem_some.mp hf ▸ hvalue

end

theorem exprsMark (n : Nat) : ExprsMark n := by
  induction n with
  | zero =>
    exact {
      binding := .pure rfl
      letScope := fun _ h => absurd h (Nat.lt_irrefl 0)
      body := missingExpr_marks
      statements := fun _ => missingExpr_marks
      expr := missingExpr_marks
      tupleItems := .pure rfl
      simpleExpr := missingExpr_marks
      conditional := missingExpr_marks
      lambda := missingExpr_marks
      operand := fun _ => missingExpr_marks
      operations := fun _ _ => .pure id
      unary := missingExpr_marks
      arguments := fun _ => .pure id
      accessed := missingExpr_marks
      accesses := fun _ => .pure id
      callArguments := .pure rfl
      atom := missingExpr_marks
      parenthesised := missingExpr_marks
      annotated := missingExpr_marks
      recordField := .pure nofun }
  | succ n ih =>
    exact {
      binding := binding_marks ih
      letScope := fun b _ => letScope_marks ih b
      body := body_marks ih
      statements := statements_marks ih
      expr := expr_marks ih
      tupleItems := tupleItems_marks ih
      simpleExpr := simpleExpr_marks ih
      conditional := conditional_marks ih
      lambda := lambda_marks ih
      operand := operand_marks ih
      operations := operations_marks ih
      unary := unary_marks ih
      arguments := arguments_marks ih
      accessed := accessed_marks ih
      accesses := accesses_marks ih
      callArguments := callArguments_marks ih
      atom := atom_marks ih
      parenthesised := parenthesised_marks ih
      annotated := annotated_marks ih
      recordField := recordField_marks ih }

/-! Declarations -/

theorem header_marks : header.Marks fun _ => True := by
  refine .next .get fun s => .ite (.pure trivial) (.ite (.pure trivial) ?_)
  refine .next skip_marks fun _ => .next longIdent?_marks fun name => ?_
  cases name with
  | some name => exact .pure trivial
  | none => exact .next unexpected_marks.trivially fun _ => .pure trivial

theorem fieldDecls_marks (unclosed : SyntaxError) (n : Nat) :
    (fieldDecls unclosed n).Marks fun fields => fields.all (·.2.isWhole) := by
  induction n with
  | zero => exact .pure rfl
  | succ n ih =>
    refine .next (eat_marks _) fun found => ?_
    cases found with
    | some span => exact .pure rfl
    | none =>
      refine .next .get fun s => .ite ?_ (.next (eat_marks _) fun found => ?_)
      · exact .reported (report_marks _) fun _ => .pure trivial
      · cases found with
        | some span => exact ih
        | none =>
          refine .next ident?_marks fun name => ?_
          cases name with
          | none => exact .next reject_marks.trivially fun _ => ih
          | some name =>
            refine .next (expect_marks _ _).trivially fun _ => ?_
            refine .bind (typesMark n).type fun fieldType => .bind ih fun fields => .pure ?_
            intro hfields htype
            simp [htype, hfields]

theorem typeDecl_marks (n : Nat) :
    (typeDecl n).Marks fun shape => ∀ span, (shape span).isWhole = true := by
  refine .next skip_marks fun _ => .next ident?_marks fun name => ?_
  cases name with
  | none => exact .reported (missing_marks _) fun _ => .pure trivial
  | some name =>
    refine .bind (expect_marks _ _) fun found => ?_
    cases found with
    | none => exact .pure nofun
    | some span =>
      suffices h : Marks _ fun shape : Span → Decl => ∀ span, (shape span).isWhole = true from
        h.imp fun _ h _ => h
      refine .next .get fun s => .ite ?_ ?_
      · refine .next bump_marks fun opener => .next .get fun s => ?_
        exact .bind (nested_marks (withOffside_marks (fieldDecls_marks _ n))) fun fields =>
          .pure fun hfields span => hfields
      · exact .bind (typesMark n).type fun t => .pure fun ht span => ht

theorem directiveArgs_marks (invalid : SyntaxError.Cause) (n : Nat) :
    (directiveArgs invalid n).Marks fun _ => True := by
  induction n with
  | zero => exact .pure trivial
  | succ n ih =>
    refine .next .get fun s => .ite (.pure trivial) ?_
    refine .next (when_marks (error_marks _ _).trivially) fun _ => .next skip_marks fun _ => ?_
    exact .next ih fun args => .pure trivial

theorem directive_marks (raw : String) (n : Nat) : (directive raw n).Marks fun _ => True := by
  refine .next bump_marks fun t => .next (directiveArgs_marks _ n) fun args => .next .get fun s => ?_
  exact .next (when_marks (report_marks _).trivially) fun _ => .next .get fun s' => .pure trivial

theorem ifStuck_reject_marks (left : Nat) (s : ParserState) :
    (ifStuck left reject).Yields s fun _ => ParserState.Marks (s.rest.length ≠ left) s := by
  rw [ifStuck, yields_bind, yields_get]
  split
  case isTrue => exact (reject_marks s).mono fun _ _ h => h.imp False.elim
  case isFalse hne => exact .refl hne

/-- A declaration that is not whole has read nothing, so it is rejected. -/
structure DeclsMark (n : Nat) : Prop where
  decls : ∀ column, (decls n column).Marks fun ds => Decl.areWhole ds
  decl : ∀ column s, (decl n column).Yields s fun d s' =>
    ParserState.Marks (d.isWhole = true ∨ s'.rest.length = s.rest.length) s s'
  moduleDecl : ∀ column s, (moduleDecl n column).Yields s fun shape s' =>
    ParserState.Marks ((∀ span, (shape span).isWhole = true) ∨ s'.rest.length = s.rest.length) s s'

section

variable {n : Nat}

theorem decls_marks (ih : DeclsMark n) (column : Nat) :
    (decls (n + 1) column).Marks fun ds => Decl.areWhole ds := by
  intro s
  simp only [decls]
  rw [yields_bind, yields_get]
  split
  case isTrue => exact .refl rfl
  case isFalse =>
    split
    case isTrue =>
      suffices h : Marks _ _ from h s
      refine .reported (error_marks _ _) fun _ => .next skip_marks fun _ => ?_
      exact .next (skipWhile_marks _) fun _ => (ih.decls column).trivially
    case isFalse =>
      rw [yields_bind, yields_setAnchor, yields_bind]
      refine (ih.decl column _).mono fun d s₁ h₁ => ?_
      rw [yields_bind]
      refine (ifStuck_reject_marks _ s₁).mono fun _ s₂ h₂ => ?_
      have hd : ParserState.Marks (d.isWhole = true) s s₂ :=
        ParserState.Marks.and_then ⟨h₁.errors, h₁.holds⟩
          (h₂.imp fun hread hd => hd.resolve_right hread)
      suffices h : Marks _ fun ds => d.isWhole = true → Decl.areWhole ds = true from
        (h s₂).mono fun ds s₃ h₃ => hd.and_then h₃
      refine .next .get fun _ => .next (when_marks unexpected_marks.trivially) fun _ => ?_
      refine .next (skipWhile_marks _) fun _ => .bind (ih.decls column) fun ds => .pure ?_
      intro hds hd
      simp [Decl.areWhole, hd, hds]

theorem moduleDecl_marks (ih : DeclsMark n) (column : Nat) :
    (moduleDecl (n + 1) column).Marks fun shape => ∀ span, (shape span).isWhole = true := by
  refine .next skip_marks fun _ => .next ident?_marks fun name => ?_
  cases name with
  | none => exact .reported (missing_marks _) fun _ => .pure trivial
  | some name =>
    refine .bind (expect_marks _ _) fun found => ?_
    cases found with
    | none => exact .pure nofun
    | some span =>
      suffices h : Marks _ fun shape : Span → Decl => ∀ span, (shape span).isWhole = true from
        h.imp fun _ h _ => h
      refine .next .get fun s => .ite ?_ ?_
      · exact .reported (error_marks _ _) fun _ => .pure trivial
      · exact .bind (withOffside_marks (ih.decls _)) fun members => .pure fun hmembers span => hmembers

theorem decl_marks (ih : DeclsMark n) (column : Nat) (s : ParserState) :
    (decl (n + 1) column).Yields s fun d s' =>
      ParserState.Marks (d.isWhole = true ∨ s'.rest.length = s.rest.length) s s' := by
  have exprs := exprsMark n
  have hwhole : ∀ {p : Parser (Span → Decl)} {s' : ParserState},
      p.Yields s' (fun shape => ParserState.Marks (∀ span, (shape span).isWhole = true) s') →
      p.Yields s' fun shape s'' => ParserState.Marks
        ((∀ span, (shape span).isWhole = true) ∨ s''.rest.length = s'.rest.length) s' s'' :=
    fun h => h.mono fun _ _ h => h.imp .inl
  simp only [decl]
  rw [yields_bind, yields_get, yields_bind]
  refine Yields.mono (Q := fun shape s' => ParserState.Marks
    ((∀ span, (shape span).isWhole = true) ∨ s'.rest.length = s.rest.length) s s') ?_ ?_
  · split
    case h_1 hlet =>
      refine hwhole (bound_marks exprs (fun hn b => ?_) (fun b => .pure fun hb span => hb) hlet)
      refine .bind (exprs.letScope b hn) fun e => .pure fun he hb span => he hb
    case h_2 =>
      refine hwhole (Marks.next skip_marks (fun _ => .next longIdent?_marks fun path => ?_) s)
      cases path with
      | some path => exact .pure fun span => rfl
      | none => exact .reported (missing_marks _) fun _ => .pure trivial
    case h_3 => exact ih.moduleDecl column s
    case h_4 => exact hwhole (typeDecl_marks n s)
    case h_5 raw _ =>
      exact hwhole (Marks.next (directive_marks raw _) (fun d => .pure fun span => rfl) s)
    case h_6 =>
      exact hwhole (Marks.next skip_marks (fun _ => .bind exprs.body fun e => .pure fun he span => he) s)
    case h_7 =>
      refine hwhole (Marks.bind exprs.expr (fun e => ?_) s)
      exact .next skipStray_marks fun _ => .pure fun he span => he
  · intro shape s₁ h₁
    exact h₁.imp fun h => h.imp_left fun h => h _

end

theorem declsMark (n : Nat) : DeclsMark n := by
  induction n with
  | zero => exact ⟨fun _ => .pure rfl, fun _ _ => .refl (.inr rfl), fun _ _ => .refl (.inr rfl)⟩
  | succ n ih =>
    refine ⟨decls_marks ih, decl_marks ih, fun column s => ?_⟩
    exact (moduleDecl_marks ih column s).mono fun _ _ h => h.imp .inl

theorem file_marks (n : Nat) : (file n).Marks fun r => Decl.areWhole r.2 :=
  .next header_marks fun _ => .next .get fun _ =>
    .bind (withOffside_marks ((declsMark n).decls _)) fun _ => .pure id

end Parser

/-- A text that is read without errors has a whole tree. -/
theorem SyntaxFile.parse_areWhole (path : Path) (text : Text) (kind : SourceKind)
    (defines : List String) (hnone : (parse path text kind defines).errors = []) :
    Decl.areWhole (parse path text kind defines).decls = true := by
  let s := start text kind defines
  have hmarks := Parser.file_marks (depthBound s.rest.length) s
  exact hmarks.holds (List.eq_nil_of_length_eq_zero
    ((List.length_mergeSort _).symm.trans (congrArg List.length hnone)))

end ScriptAnalyzer

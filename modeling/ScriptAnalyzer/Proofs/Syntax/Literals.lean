import ScriptAnalyzer.Proofs.Syntax.Declarations
import ScriptAnalyzer.Proofs.Syntax.NamePlaces
import ScriptAnalyzer.Proofs.Syntax.Landmarks
import ScriptAnalyzer.Proofs.Token.Contents

/-!
The strings of a tree and the tokens that they are the contents of. Main statement: each string of a file is
what a string token at its place stands for.
-/

namespace ScriptAnalyzer

/-! Expressions inside of expressions -/

theorem Expr.preorder_of_mem {e d : Expr} (h : d ∈ e.preorder) : d.preorder ⊆ e.preorder :=
  subset_of_mem_preorder (fun _ _ => preorder_of_child) h

mutual

theorem Decl.preorder_of_mem_exprs {e : Expr} (d : Decl) (h : e ∈ d.exprs) : e.preorder ⊆ d.exprs := by
  match d, h with
  | .binding _ b, h => exact Expr.preorder_of_mem h
  | .module _ name ds, h => exact preorder_of_mem_exprsOfAll ds h
  | .expr _ _, h => exact Expr.preorder_of_mem h

theorem Decl.preorder_of_mem_exprsOfAll {e : Expr} (ds : List Decl) (h : e ∈ exprsOfAll ds) :
    e.preorder ⊆ exprsOfAll ds := by
  match ds, h with
  | d :: ds, h =>
    rw [exprsOfAll]
    rcases List.mem_append.mp h with h | h
    · exact List.subset_append_of_subset_left _ (preorder_of_mem_exprs d h)
    · exact List.subset_append_of_subset_right _ (preorder_of_mem_exprsOfAll ds h)

end

variable {ts : List LaidToken}

/-- Each string among the expressions is that of one of the tokens. -/
def AreQuoted (ts : List LaidToken) (es : List Expr) : Prop :=
  ∀ span value, .literal span (.string value) ∈ es → ∃ t ∈ ts, Token.Writes t.source span value

theorem areQuoted_append {es es' : List Expr} :
    AreQuoted ts (es ++ es') ↔ AreQuoted ts es ∧ AreQuoted ts es' := by
  simp only [AreQuoted, List.mem_append, or_imp, forall_and]

/-- The strings in the expression are those of some of the tokens. -/
def Expr.Quotes (ts : List LaidToken) (e : Expr) : Prop := AreQuoted ts e.preorder

/-- An expression that is no string quotes what its children do. -/
theorem Expr.quotes_of_children {e : Expr} (hchildren : ∀ c ∈ e.children, c.Quotes ts)
    (hplain : ∀ span value, e ≠ .literal span (.string value)) : e.Quotes ts := by
  intro span value hmem
  rw [preorder_eq, List.mem_cons, List.mem_flatMap] at hmem
  rcases hmem with heq | ⟨c, hc, hmem⟩
  · exact absurd heq.symm (hplain span value)
  · exact hchildren c hc span value hmem

namespace Parser

open ParserState

variable {α β : Type} {p : Parser α} {P : α → Prop} {Q : β → Prop}

/-- Where only these tokens are left, no others are left behind, and the result has the property. -/
def Quotes (ts : List LaidToken) (p : Parser α) (P : α → Prop) : Prop :=
  ∀ s, s.rest ⊆ ts → p.Yields s fun a s' => s'.rest ⊆ ts ∧ P a

namespace Quotes

theorem imp {R : α → Prop} (hp : p.Quotes ts P) (h : ∀ a, P a → R a) : p.Quotes ts R :=
  fun s hs => (hp s hs).mono fun a _ ha => ⟨ha.1, h a ha.2⟩

theorem bind {f : α → Parser β} (hp : p.Quotes ts P) (hf : ∀ a, P a → (f a).Quotes ts Q) :
    (p >>= f).Quotes ts Q := by
  intro s hs
  rw [yields_bind]
  exact (hp s hs).mono fun a s₁ ⟨hs₁, ha⟩ => hf a ha s₁ hs₁

theorem pure {a : α} (h : P a) : Quotes ts (pure a) P := fun _ hs => ⟨hs, h⟩

/-- A parser that is run for its effect. -/
theorem next {f : α → Parser β} (hp : p.Quotes ts fun _ => True) (hf : ∀ a, (f a).Quotes ts Q) :
    (p >>= f).Quotes ts Q :=
  hp.bind fun a _ => hf a

theorem get {f : ParserState → Parser β} (hf : ∀ s, s.rest ⊆ ts → (f s).Quotes ts Q) :
    (get >>= f).Quotes ts Q :=
  fun s hs => hf s hs s hs

theorem modify {f : ParserState → ParserState} (h : ∀ s, (f s).rest = s.rest) :
    Quotes ts (modify f) fun _ => True :=
  fun s hs => ⟨(h s).symm ▸ hs, trivial⟩

theorem ite {c : Prop} [Decidable c] {q : Parser α} (hp : p.Quotes ts P) (hq : q.Quotes ts P) :
    Quotes ts (if c then p else q) P := by
  split
  · exact hp
  · exact hq

end Quotes

/-! What is no expression -/

theorem resuming_false : Resuming (fun _ => False) 0 := ⟨False.elim, False.elim, False.elim⟩

/-- What a parser leaves is a part of what it finds. -/
theorem quotes_of_passes (hp : ∀ s, p.Yields s fun _ => Passes (fun _ => False) s) :
    p.Quotes ts fun _ => True := by
  intro s hs
  refine (hp s).mono fun a s' ⟨read, hreads, _⟩ => ⟨fun t ht => hs ?_, trivial⟩
  rw [hreads.rest]
  exact List.mem_append_right read ht

theorem skip_quotes : skip.Quotes ts fun _ => True :=
  quotes_of_passes fun _ => passes_advance id

theorem bump_quotes : bump.Quotes ts fun _ => True :=
  quotes_of_passes fun _ => passes_advance id

theorem report_quotes (e : SyntaxError) : (report e).Quotes ts fun _ => True :=
  quotes_of_passes fun s => passes_report s e

theorem error_quotes (cause : SyntaxError.Cause) (span : Span) :
    (error cause span).Quotes ts fun _ => True :=
  report_quotes _

theorem missing_quotes (what : String) : (missing what).Quotes ts fun _ => True :=
  quotes_of_passes (missing_passes what)

theorem unexpected_quotes : unexpected.Quotes ts fun _ => True := quotes_of_passes unexpected_passes

theorem reject_quotes : reject.Quotes ts fun _ => True := quotes_of_passes reject_passes

theorem setAnchor_quotes : setAnchor.Quotes ts fun _ => True := .modify fun _ => rfl

theorem skipWhile_quotes (q : LaidToken → Bool) : (skipWhile q).Quotes ts fun _ => True :=
  quotes_of_passes (skipWhile_passes fun _ => False.elim)

theorem skipStray_quotes : skipStray.Quotes ts fun _ => True :=
  quotes_of_passes (skipStray_passes resuming_false)

theorem eat_quotes (token : Token) : (eat token).Quotes ts fun _ => True :=
  .get fun _ _ => .ite (.next bump_quotes fun _ => .pure trivial) (.pure trivial)

theorem expect_quotes (token : Token) (what : String) : (expect token what).Quotes ts fun _ => True := by
  refine .next (eat_quotes token) fun found => ?_
  cases found with
  | some span => exact .pure trivial
  | none => exact .next (missing_quotes what) fun _ => .pure trivial

theorem ident?_quotes : ident?.Quotes ts fun _ => True := quotes_of_passes (ident?_passes resuming_false)

theorem longIdent?_quotes : longIdent?.Quotes ts fun _ => True :=
  quotes_of_passes (longIdent?_passes resuming_false)

theorem type_quotes (n : Nat) : (type n).Quotes ts fun _ => True :=
  quotes_of_passes (typesPass resuming_false n).type

theorem params_quotes (n : Nat) : (params n).Quotes ts fun _ => True :=
  quotes_of_passes (params_passes resuming_false n)

theorem closing_quotes (close : Punct) (e : SyntaxError) : (closing close e).Quotes ts fun _ => True :=
  quotes_of_passes (closing_passes resuming_false close e)

theorem when_quotes {b : Bool} {q : Parser Unit} (hq : q.Quotes ts fun _ => True) :
    (when b q).Quotes ts fun _ => True :=
  .ite hq (.pure trivial)

theorem ifStuck_quotes {left : Nat} {q : Parser Unit} (hq : q.Quotes ts fun _ => True) :
    (ifStuck left q).Quotes ts fun _ => True :=
  .get fun _ _ => .ite hq (.pure trivial)

theorem nested_quotes (hp : p.Quotes ts P) : (nested p).Quotes ts P :=
  .next (.modify fun _ => rfl) fun _ => .bind hp fun _ ha =>
    .next (.modify fun _ => rfl) fun _ => .pure ha

theorem withOffside_quotes {column : Nat} (hp : p.Quotes ts P) : (withOffside column p).Quotes ts P :=
  .get fun _ _ => .next (.modify fun _ => rfl) fun _ => .bind hp fun _ ha =>
    .next (.modify fun _ => rfl) fun _ => .pure ha

/-! Expressions -/

theorem quotes_error (span : Span) : Expr.Quotes ts (.error span) :=
  Expr.quotes_of_children nofun nofun

theorem missingExpr_quotes : missingExpr.Quotes ts (·.Quotes ts) :=
  .get fun _ _ => .next (error_quotes _ _) fun _ => .pure (quotes_error _)

theorem errorHere_quotes : errorHere.Quotes ts (·.Quotes ts) := .get fun _ _ => .pure (quotes_error _)

theorem behind_quotes {token : Token} {what : String} {p : Parser Expr} (hp : p.Quotes ts (·.Quotes ts)) :
    (behind token what p).Quotes ts (·.Quotes ts) := by
  refine .next (expect_quotes token what) fun found => ?_
  cases found with
  | some span => exact hp
  | none => exact errorHere_quotes

theorem literal?_quotes (t : LaidToken) : (literal? t).Quotes ts fun l => ∀ value,
    l = some (.string value) → Token.Writes t.source t.span value := by
  unfold literal?
  split
  case h_1 => exact .ite (.pure nofun) (.next (error_quotes _ _) fun _ => .pure nofun)
  case h_3 raw htoken =>
    refine .pure fun value heq => ⟨rfl, raw, .inl htoken, ?_⟩
    cases heq
    rfl
  case h_4 raw htoken =>
    refine .pure fun value heq => ⟨rfl, raw, .inr htoken, ?_⟩
    cases heq
    rfl
  all_goals exact .pure nofun

/-- A string is no end of the file, so it is one of the tokens that are left. -/
theorem mem_rest_of_writes {s : ParserState} {span : Span} {value : String}
    (h : Token.Writes s.current.source span value) : s.current ∈ s.rest := by
  cases hrest : s.rest with
  | nil =>
    have hcurrent : s.current = .endOf s.size := by rw [current, hrest, List.headD_nil]
    rw [hcurrent] at h
    obtain ⟨raw, htoken | htoken, -⟩ := h.quoted <;> cases htoken
  | cons t rest =>
    rw [current, hrest, List.headD_cons]
    exact List.mem_cons_self

theorem atStatement_quotes (column : Nat) : (atStatement column).Quotes ts fun _ => True :=
  .get fun _ _ => .pure trivial

theorem sequenceItems_quotes {close : Punct} {unclosed : SyntaxError} {item : Parser (Option α)}
    (hitem : item.Quotes ts fun found => ∀ a ∈ found, P a) (n : Nat) :
    (sequenceItems close unclosed item n).Quotes ts fun r => ∀ a ∈ r.1, P a := by
  induction n with
  | zero => exact .get fun _ _ => .pure nofun
  | succ n ih =>
    refine .next (eat_quotes _) fun found => ?_
    cases found with
    | some span => exact .pure nofun
    | none =>
      refine .get fun s _ => .ite (.next (report_quotes _) fun _ => .pure nofun) ?_
      refine .next (eat_quotes _) fun found => ?_
      cases found with
      | some span => exact ih
      | none =>
        refine .next setAnchor_quotes fun _ => .bind hitem fun found hfound => ?_
        refine .next (ifStuck_quotes reject_quotes) fun _ => .bind ih fun r hr => .pure fun a ha => ?_
        rcases List.mem_append.mp ha with ha | ha
        · exact hfound a (Option.mem_toList.mp ha)
        · exact hr a ha

theorem bracketed_quotes {close : Punct} {delimiter : Char} {item : Parser (Option α)}
    (hitem : item.Quotes ts fun found => ∀ a ∈ found, P a) (n : Nat) :
    (bracketed close delimiter item n).Quotes ts fun r => ∀ a ∈ r.1, P a :=
  .next bump_quotes fun _ => .get fun _ _ =>
    nested_quotes (withOffside_quotes (sequenceItems_quotes hitem n))

theorem bindingPattern_quotes (n : Nat) : (bindingPattern (atomicPattern n)).Quotes ts fun _ => True :=
  quotes_of_passes fun s => bindingPattern_passes ((patternsPass resuming_false n).atomicPattern s)

theorem returnType_quotes (n : Nat) : (behind? (.punct .colon) (type n)).Quotes ts fun _ => True :=
  quotes_of_passes (behind?_passes resuming_false rfl (typesPass resuming_false n).type)

theorem blockRest_quotes {column : Nat} {b : Binding} {p : Parser Expr} (hp : p.Quotes ts (·.Quotes ts)) :
    (blockRest column b p).Quotes ts (·.Quotes ts) :=
  .next (atStatement_quotes column) fun _ =>
    .ite hp (.next (report_quotes _) fun _ => errorHere_quotes)

theorem thenPart_quotes {p : Parser Expr} (hp : p.Quotes ts (·.Quotes ts)) :
    (thenPart p).Quotes ts (·.Quotes ts) :=
  .get fun _ _ => .ite (.next (missing_quotes _) fun _ => errorHere_quotes) (behind_quotes hp)

theorem elsePart_quotes {p : Parser Expr} (hp : p.Quotes ts (·.Quotes ts)) :
    (elsePart p).Quotes ts fun branch => ∀ e ∈ branch, e.Quotes ts := by
  refine .get fun s _ => .ite ?_ (.pure nofun)
  refine .next skip_quotes fun _ => .bind hp fun e he => .pure fun f hf => ?_
  exact Option.mem_some.mp hf ▸ he

theorem rightOperand_quotes {openExpr closed : Parser Expr} (hopen : openExpr.Quotes ts (·.Quotes ts))
    (hclosed : closed.Quotes ts (·.Quotes ts)) : (rightOperand openExpr closed).Quotes ts (·.Quotes ts) :=
  .get fun _ _ => .ite hopen hclosed

theorem memberName?_quotes : memberName?.Quotes ts fun _ => True :=
  .get fun _ _ => .ite (.pure trivial) ident?_quotes

theorem parentheses_quotes (opener : Span) (close : Option Span) :
    (parentheses opener close).Quotes ts fun _ => True := by
  cases close with
  | none => exact .next (report_quotes _) fun _ => .get fun _ _ => .pure trivial
  | some close => exact .pure trivial

structure ExprsQuote (ts : List LaidToken) (n : Nat) : Prop where
  binding : (binding n).Quotes ts (·.body.Quotes ts)
  letScope : ∀ b : Binding, b.body.Quotes ts → (letScope n b).Quotes ts (·.Quotes ts)
  body : (body n).Quotes ts (·.Quotes ts)
  statements : ∀ column, (statements n column).Quotes ts (·.Quotes ts)
  expr : (expr n).Quotes ts (·.Quotes ts)
  tupleItems : (tupleItems n).Quotes ts fun es => ∀ e ∈ es, e.Quotes ts
  simpleExpr : (simpleExpr n).Quotes ts (·.Quotes ts)
  conditional : (conditional n).Quotes ts (·.Quotes ts)
  lambda : (lambda n).Quotes ts (·.Quotes ts)
  operand : ∀ power, (operand n power).Quotes ts (·.Quotes ts)
  operations : ∀ power lhs, lhs.Quotes ts → (operations n power lhs).Quotes ts (·.Quotes ts)
  unary : (unary n).Quotes ts (·.Quotes ts)
  arguments : ∀ function, function.Quotes ts → (arguments n function).Quotes ts (·.Quotes ts)
  accessed : (accessed n).Quotes ts (·.Quotes ts)
  accesses : ∀ target, target.Quotes ts → (accesses n target).Quotes ts (·.Quotes ts)
  callArguments : (callArguments n).Quotes ts fun r => ∀ e ∈ r.1, e.Quotes ts
  atom : (atom n).Quotes ts (·.Quotes ts)
  parenthesised : (parenthesised n).Quotes ts (·.Quotes ts)
  annotated : (annotated n).Quotes ts (·.Quotes ts)
  recordField : (recordField n).Quotes ts fun field => ∀ f ∈ field, f.2.Quotes ts

section

variable {n : Nat}

theorem quotes_letIn {span : Span} {head : LetHead} {value body : Expr} (hvalue : value.Quotes ts)
    (hbody : body.Quotes ts) : Expr.Quotes ts (.letIn span head value body) := by
  refine Expr.quotes_of_children ?_ nofun
  simp [Expr.children, hvalue, hbody]

theorem binding_quotes (ih : ExprsQuote ts n) : (binding (n + 1)).Quotes ts (·.body.Quotes ts) := by
  refine .next bump_quotes fun letToken => .next (eat_quotes _) fun recToken => ?_
  refine .next (bindingPattern_quotes n) fun pattern => .next (params_quotes n) fun parameters => ?_
  refine .next (when_quotes (error_quotes _ _)) fun _ => .next (returnType_quotes n) fun returnType => ?_
  exact .bind (behind_quotes ih.body) fun value hvalue => .get fun _ _ => .pure hvalue

theorem letScope_quotes (ih : ExprsQuote ts n) {b : Binding} (hb : b.body.Quotes ts) :
    (letScope (n + 1) b).Quotes ts (·.Quotes ts) :=
  .next skip_quotes fun _ => .bind ih.body fun _ hscope => .pure (quotes_letIn hb hscope)

theorem body_quotes (ih : ExprsQuote ts n) : (body (n + 1)).Quotes ts (·.Quotes ts) :=
  .get fun _ _ => .ite missingExpr_quotes (.ite (withOffside_quotes (ih.statements _)) ih.expr)

theorem statements_quotes (ih : ExprsQuote ts n) (column : Nat) :
    (statements (n + 1) column).Quotes ts (·.Quotes ts) := by
  refine .get fun s _ => .ite (.bind ih.binding fun b hb => .get fun s' _ => ?_) ?_
  · refine .ite (ih.letScope b hb) (.next skipStray_quotes fun _ => ?_)
    refine .bind (blockRest_quotes (ih.statements column)) fun _ hscope => ?_
    exact .pure (quotes_letIn hb hscope)
  · refine .get fun s' _ => .next setAnchor_quotes fun _ => .bind ih.expr fun first hfirst => ?_
    refine .next (ifStuck_quotes skip_quotes) fun _ => .next skipStray_quotes fun _ => ?_
    refine .next (atStatement_quotes column) fun _ => .ite ?_ (.pure hfirst)
    refine .bind (ih.statements column) fun second hsecond => .pure (Expr.quotes_of_children ?_ nofun)
    simp [Expr.children, hfirst, hsecond]

theorem expr_quotes (ih : ExprsQuote ts n) : (expr (n + 1)).Quotes ts (·.Quotes ts) := by
  refine .bind ih.simpleExpr fun first hfirst => .bind ih.tupleItems fun more hmore => ?_
  split
  · exact .pure (Expr.quotes_of_children (List.forall_mem_cons.mpr ⟨hfirst, hmore⟩) (by simp))
  · exact .pure hfirst

theorem tupleItems_quotes (ih : ExprsQuote ts n) :
    (tupleItems (n + 1)).Quotes ts fun es => ∀ e ∈ es, e.Quotes ts := by
  refine .get fun s _ => .ite ?_ (.pure nofun)
  refine .next skip_quotes fun _ => .bind ih.simpleExpr fun item hitem => ?_
  exact .bind ih.tupleItems fun more hmore => .pure (List.forall_mem_cons.mpr ⟨hitem, hmore⟩)

theorem simpleExpr_quotes (ih : ExprsQuote ts n) : (simpleExpr (n + 1)).Quotes ts (·.Quotes ts) := by
  refine .get fun s _ => ?_
  split
  · refine .bind ih.binding fun b hb => .get fun s' _ => .ite (ih.letScope b hb) ?_
    exact .next (error_quotes _ _) fun _ => .pure (quotes_letIn hb (quotes_error _))
  · exact ih.conditional
  · exact ih.lambda
  · exact ih.operand 0

theorem conditional_quotes (ih : ExprsQuote ts n) : (conditional (n + 1)).Quotes ts (·.Quotes ts) := by
  refine .next bump_quotes fun _ => .bind ih.expr fun condition hcondition => ?_
  refine .bind (thenPart_quotes ih.body) fun thenBranch hthen => ?_
  refine .bind (elsePart_quotes ih.body) fun elseBranch helse => .get fun s _ => .pure ?_
  refine Expr.quotes_of_children (List.forall_mem_cons.mpr ⟨hcondition, ?_⟩) nofun
  exact List.forall_mem_cons.mpr ⟨hthen, fun e he => helse e (Option.mem_toList.mp he)⟩

theorem lambda_quotes (ih : ExprsQuote ts n) : (lambda (n + 1)).Quotes ts (·.Quotes ts) := by
  refine .next bump_quotes fun _ => .next (params_quotes n) fun parameters => ?_
  refine .next (when_quotes (missing_quotes _)) fun _ => .bind (behind_quotes ih.body) fun value hvalue => ?_
  refine .get fun s _ => .pure (Expr.quotes_of_children ?_ nofun)
  simp [Expr.children, hvalue]

theorem operand_quotes (ih : ExprsQuote ts n) (power : Nat) :
    (operand (n + 1) power).Quotes ts (·.Quotes ts) :=
  .bind ih.unary fun lhs hlhs => ih.operations power lhs hlhs

theorem operations_quotes (ih : ExprsQuote ts n) (power : Nat) {lhs : Expr} (hlhs : lhs.Quotes ts) :
    (operations (n + 1) power lhs).Quotes ts (·.Quotes ts) := by
  refine .get fun s _ => ?_
  split
  · exact .pure hlhs
  · refine .ite (.pure hlhs) (.next bump_quotes fun opToken => ?_)
    refine .bind (rightOperand_quotes ih.simpleExpr (ih.operand _)) fun rhs hrhs => ?_
    refine ih.operations power _ (Expr.quotes_of_children ?_ nofun)
    simp [Expr.children, hlhs, hrhs]

theorem unary_quotes (ih : ExprsQuote ts n) : (unary (n + 1)).Quotes ts (·.Quotes ts) := by
  refine .get fun s _ => .ite ?_ (.bind ih.accessed fun function h => ih.arguments function h)
  refine .next bump_quotes fun _ => .bind ih.unary fun inner hinner => ?_
  refine .pure (Expr.quotes_of_children ?_ nofun)
  simp [Expr.children, hinner]

theorem arguments_quotes (ih : ExprsQuote ts n) {function : Expr} (hfunction : function.Quotes ts) :
    (arguments (n + 1) function).Quotes ts (·.Quotes ts) := by
  refine .get fun s _ => .ite (.bind ih.accessed fun argument hargument => ?_) (.pure hfunction)
  refine ih.arguments _ (Expr.quotes_of_children ?_ nofun)
  simp [Expr.children, hfunction, hargument]

theorem accessed_quotes (ih : ExprsQuote ts n) : (accessed (n + 1)).Quotes ts (·.Quotes ts) :=
  .bind ih.atom fun target htarget => ih.accesses target htarget

theorem accesses_quotes (ih : ExprsQuote ts n) {target : Expr} (htarget : target.Quotes ts) :
    (accesses (n + 1) target).Quotes ts (·.Quotes ts) := by
  have hmember (span dot : Span) (name : Option Ident) : Expr.Quotes ts (.member span target dot name) :=
    Expr.quotes_of_children (by simp [Expr.children, htarget]) (by simp)
  refine .get fun s _ => ?_
  split
  · refine .ite (.pure htarget) (.next bump_quotes fun dot => .next memberName?_quotes fun name => ?_)
    cases name with
    | some name => exact ih.accesses _ (hmember _ _ _)
    | none => exact .next (report_quotes _) fun _ => ih.accesses _ (hmember _ _ _)
  · refine .ite (.pure htarget) (.next bump_quotes fun opener => ?_)
    refine .bind (nested_quotes ih.callArguments) fun args hargs => ?_
    refine .next (parentheses_quotes _ _) fun parens => ?_
    exact ih.accesses _ (Expr.quotes_of_children (List.forall_mem_cons.mpr ⟨htarget, hargs⟩) (by simp))
  · exact .pure htarget

theorem callArguments_quotes (ih : ExprsQuote ts n) :
    (callArguments (n + 1)).Quotes ts fun r => ∀ e ∈ r.1, e.Quotes ts := by
  refine .next (eat_quotes _) fun close => ?_
  cases close with
  | some close => exact .pure (by simp)
  | none =>
    refine .get fun s _ => .ite (.pure (by simp)) (.bind ih.simpleExpr fun arg harg => ?_)
    have hmore : (callArgumentsFrom n arg).Quotes ts fun r => ∀ e ∈ r.1, e.Quotes ts :=
      .bind ih.callArguments fun more hmore => .pure (List.forall_mem_cons.mpr ⟨harg, hmore⟩)
    refine .next (eat_quotes _) fun comma => ?_
    cases comma with
    | some comma => exact hmore
    | none => exact .get fun s' _ => .ite (.pure (List.forall_mem_singleton.mpr harg)) hmore

theorem atom_quotes (ih : ExprsQuote ts n) : (atom (n + 1)).Quotes ts (·.Quotes ts) := by
  refine .get fun s hs => .ite missingExpr_quotes ?_
  dsimp only
  split
  · exact .next skip_quotes fun _ => .pure (Expr.quotes_of_children nofun nofun)
  · exact ih.parenthesised
  · have hitem : (some <$> expr n).Quotes ts fun found => ∀ e ∈ found, e.Quotes ts := by
      intro s hs
      rw [yields_map]
      exact (ih.expr s hs).mono fun e _ he => ⟨he.1, fun f hf => Option.mem_some.mp hf ▸ he.2⟩
    refine .bind (bracketed_quotes hitem n) fun r hr => .pure ?_
    exact Expr.quotes_of_children hr nofun
  · refine .bind (bracketed_quotes ih.recordField n) fun r hr => .pure ?_
    refine Expr.quotes_of_children (fun e he => ?_) nofun
    obtain ⟨f, hf, rfl⟩ := List.mem_map.mp he
    exact hr f hf
  · exact ih.simpleExpr
  · exact ih.simpleExpr
  · exact ih.simpleExpr
  · refine .bind (literal?_quotes s.current) fun found hfound => ?_
    cases found with
    | none => exact .next (error_quotes _ _) fun _ => .pure (quotes_error _)
    | some l =>
      refine .next skip_quotes fun _ => .pure fun span value hmem => ?_
      obtain ⟨rfl, rfl⟩ := Expr.literal.inj (List.mem_singleton.mp hmem)
      have hwrites := hfound value rfl
      exact ⟨s.current, hs (mem_rest_of_writes hwrites), hwrites⟩

theorem parenthesised_quotes (ih : ExprsQuote ts n) : (parenthesised (n + 1)).Quotes ts (·.Quotes ts) := by
  refine .next bump_quotes fun opener => .next (eat_quotes _) fun close => ?_
  cases close with
  | some close => exact .pure (Expr.quotes_of_children nofun nofun)
  | none =>
    refine .bind (nested_quotes ih.annotated) fun inner hinner => .next (closing_quotes _ _) fun stop => ?_
    refine .pure (Expr.quotes_of_children ?_ nofun)
    simp [Expr.children, hinner]

theorem annotated_quotes (ih : ExprsQuote ts n) : (annotated (n + 1)).Quotes ts (·.Quotes ts) := by
  refine .bind ih.expr fun inner hinner => .get fun s _ => .ite ?_ (.pure hinner)
  refine .next skip_quotes fun _ => .next (type_quotes n) fun annotation => ?_
  refine .pure (Expr.quotes_of_children ?_ nofun)
  simp [Expr.children, hinner]

theorem recordField_quotes (ih : ExprsQuote ts n) :
    (recordField (n + 1)).Quotes ts fun field => ∀ f ∈ field, f.2.Quotes ts := by
  refine .next ident?_quotes fun name => ?_
  cases name with
  | none => exact .pure nofun
  | some name =>
    refine .bind (behind_quotes ih.expr) fun value hvalue => .pure fun f hf => ?_
    exact Option.mem_some.mp hf ▸ hvalue

end

theorem exprsQuote (n : Nat) : ExprsQuote ts n := by
  induction n with
  | zero =>
    exact {
      binding := .get fun _ _ => .pure (Expr.quotes_of_children nofun nofun)
      letScope := fun _ hb => .pure (quotes_letIn hb (quotes_error _))
      body := missingExpr_quotes
      statements := fun _ => missingExpr_quotes
      expr := missingExpr_quotes
      tupleItems := .pure nofun
      simpleExpr := missingExpr_quotes
      conditional := missingExpr_quotes
      lambda := missingExpr_quotes
      operand := fun _ => missingExpr_quotes
      operations := fun _ _ hlhs => .pure hlhs
      unary := missingExpr_quotes
      arguments := fun _ hfunction => .pure hfunction
      accessed := missingExpr_quotes
      accesses := fun _ htarget => .pure htarget
      callArguments := .pure nofun
      atom := missingExpr_quotes
      parenthesised := missingExpr_quotes
      annotated := missingExpr_quotes
      recordField := .pure nofun }
  | succ n ih =>
    exact {
      binding := binding_quotes ih
      letScope := fun _ hb => letScope_quotes ih hb
      body := body_quotes ih
      statements := statements_quotes ih
      expr := expr_quotes ih
      tupleItems := tupleItems_quotes ih
      simpleExpr := simpleExpr_quotes ih
      conditional := conditional_quotes ih
      lambda := lambda_quotes ih
      operand := operand_quotes ih
      operations := fun power _ hlhs => operations_quotes ih power hlhs
      unary := unary_quotes ih
      arguments := fun _ hfunction => arguments_quotes ih hfunction
      accessed := accessed_quotes ih
      accesses := fun _ htarget => accesses_quotes ih htarget
      callArguments := callArguments_quotes ih
      atom := atom_quotes ih
      parenthesised := parenthesised_quotes ih
      annotated := annotated_quotes ih
      recordField := recordField_quotes ih }

/-! Declarations -/

theorem header_quotes : header.Quotes ts fun _ => True := by
  refine .get fun s _ => .ite (.pure trivial) (.ite (.pure trivial) ?_)
  refine .next skip_quotes fun _ => .next longIdent?_quotes fun name => ?_
  cases name with
  | some name => exact .pure trivial
  | none => exact .next unexpected_quotes fun _ => .pure trivial

/-- A type has no expressions. -/
theorem typeDecl_quotes (n : Nat) : (typeDecl n).Quotes ts fun shape => ∀ place, (shape place).exprs = [] := by
  refine .next skip_quotes fun _ => .next ident?_quotes fun name => ?_
  cases name with
  | none => exact .next (missing_quotes _) fun _ => .pure fun _ => rfl
  | some name =>
    refine .next (expect_quotes _ _) fun found => ?_
    cases found with
    | none => exact .pure fun _ => rfl
    | some span =>
      refine .get fun _ _ => .ite (.next bump_quotes fun opener => .get fun s _ => ?_) ?_
      · have hfields : (fieldDecls { cause := .unclosedDelimiter '\x7b', span := opener.span
                                     hint := some "close the record with '\x7d'" } n).Quotes ts
            fun _ => True :=
          quotes_of_passes (fieldDecls_passes resuming_false _ n)
        exact .next (nested_quotes (withOffside_quotes hfields)) fun _ => .pure fun _ => rfl
      · exact .next (type_quotes n) fun _ => .pure fun _ => rfl

theorem directive_quotes (raw : String) (n : Nat) : (directive raw n).Quotes ts fun _ => True := by
  refine .next bump_quotes fun t => ?_
  refine .next (quotes_of_passes (directiveArgs_passes resuming_false _ n)) fun args => .get fun s _ => ?_
  exact .next (when_quotes (report_quotes _)) fun _ => .get fun _ _ => .pure trivial

structure DeclsQuote (ts : List LaidToken) (n : Nat) : Prop where
  decls : ∀ column, (decls n column).Quotes ts fun ds => AreQuoted ts (Decl.exprsOfAll ds)
  decl : ∀ column, (decl n column).Quotes ts fun d => AreQuoted ts d.exprs
  moduleDecl : ∀ column, (moduleDecl n column).Quotes ts fun shape =>
    ∀ place, AreQuoted ts (shape place).exprs

section

variable {n : Nat}

theorem decls_quotes (ih : DeclsQuote ts n) (column : Nat) :
    (decls (n + 1) column).Quotes ts fun ds => AreQuoted ts (Decl.exprsOfAll ds) := by
  refine .get fun s _ => .ite (.pure nofun) (.ite ?_ ?_)
  · refine .next (error_quotes _ _) fun _ => .next skip_quotes fun _ => ?_
    exact .next (skipWhile_quotes _) fun _ => ih.decls column
  · refine .next setAnchor_quotes fun _ => .bind (ih.decl column) fun d hd => ?_
    refine .next (ifStuck_quotes reject_quotes) fun _ => .get fun _ _ => ?_
    refine .next (when_quotes unexpected_quotes) fun _ => .next (skipWhile_quotes _) fun _ => ?_
    exact .bind (ih.decls column) fun ds hds => .pure (areQuoted_append.mpr ⟨hd, hds⟩)

theorem moduleDecl_quotes (ih : DeclsQuote ts n) (column : Nat) :
    (moduleDecl (n + 1) column).Quotes ts fun shape => ∀ place, AreQuoted ts (shape place).exprs := by
  refine .next skip_quotes fun _ => .next ident?_quotes fun name => ?_
  cases name with
  | none => exact .next (missing_quotes _) fun _ => .pure fun _ => nofun
  | some name =>
    refine .next (expect_quotes _ _) fun found => ?_
    cases found with
    | none => exact .pure fun _ => nofun
    | some span =>
      refine .get fun s _ => .ite (.next (error_quotes _ _) fun _ => .pure fun _ => nofun) ?_
      exact .bind (withOffside_quotes (ih.decls _)) fun members hmembers => .pure fun _ => hmembers

theorem decl_quotes (ih : DeclsQuote ts n) (column : Nat) :
    (decl (n + 1) column).Quotes ts fun d => AreQuoted ts d.exprs := by
  have exprs : ExprsQuote ts n := exprsQuote n
  refine .get fun s _ => .bind (P := fun shape => ∀ place, AreQuoted ts (shape place).exprs) ?_
    fun shape hshape => .get fun _ _ => .pure (hshape _)
  split
  · refine .bind exprs.binding fun b hb => .get fun s' _ => .ite ?_ (.pure fun _ => hb)
    exact .bind (exprs.letScope b hb) fun e he => .pure fun _ => he
  · refine .next skip_quotes fun _ => .next longIdent?_quotes fun path => ?_
    cases path with
    | some path => exact .pure fun _ => nofun
    | none => exact .next (missing_quotes _) fun _ => .pure fun _ => nofun
  · exact ih.moduleDecl column
  · refine (typeDecl_quotes n).imp fun shape hshape place => ?_
    rw [hshape place]
    exact nofun
  · exact .next (directive_quotes _ _) fun d => .pure fun _ => nofun
  · exact .next skip_quotes fun _ => .bind exprs.body fun e he => .pure fun _ => he
  · exact .bind exprs.expr fun e he => .next skipStray_quotes fun _ => .pure fun _ => he

end

theorem declsQuote (n : Nat) : DeclsQuote ts n := by
  induction n with
  | zero => exact ⟨fun _ => .pure nofun, fun _ => .pure nofun, fun _ => .pure fun _ => nofun⟩
  | succ n ih => exact ⟨decls_quotes ih, decl_quotes ih, moduleDecl_quotes ih⟩

theorem file_quotes (n : Nat) : (file n).Quotes ts fun r => AreQuoted ts (Decl.exprsOfAll r.2) :=
  .next header_quotes fun _ => .get fun _ _ =>
    .bind (withOffside_quotes ((declsQuote n).decls _)) fun _ hds => .pure hds

end Parser

/-- A string in the tree is what the string token at its place stands for. -/
theorem SyntaxFile.string_writes {path : Path} {text : Text} {kind : SourceKind} {defines : List String}
    {span : Span} {value : String}
    (h : .literal span (.string value) ∈ Decl.exprsOfAll (parse path text kind defines).decls) :
    ∃ t ∈ Token.tokens text, Token.Writes t span value := by
  let s := start text kind defines
  obtain ⟨-, hquoted⟩ := Parser.file_quotes (depthBound s.rest.length) s (List.Subset.refl s.rest)
  obtain ⟨t, ht, hwrites⟩ := hquoted span value h
  exact ⟨t.source, (significantTokens_sublist text defines).subset (List.mem_map_of_mem ht), hwrites⟩

end ScriptAnalyzer

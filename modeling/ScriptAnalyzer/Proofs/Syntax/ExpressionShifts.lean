import ScriptAnalyzer.Proofs.Syntax.Shifts

/-!
Types, patterns and expressions read from moved tokens: the same trees with their spans moved.
-/

namespace ScriptAnalyzer
namespace Parser

open ParserState Shift

variable {σ : Shift} {n : Nat} {s : ParserState}

theorem span_longIdent (name : LongIdent) : (name.mapSpans σ.span).span = σ.span name.span := by
  have hlast : (name.mapSpans σ.span).last = name.last.mapSpans σ.span := by
    rw [LongIdent.last, LongIdent.mapSpans, List.getLast?_map]
    cases h : name.tail.getLast? with
    | none => simp only [LongIdent.last, h]; rfl
    | some last => simp only [LongIdent.last, h]; rfl
  rw [LongIdent.span, hlast, LongIdent.span, span_merge]
  rfl

/-! Types -/

theorem missingType_mirrors (s : ParserState) :
    Mirrors σ (Gives (·.mapSpans σ.span)) missingType missingType s := by
  refine (missing_mirrors "a type" s).andThen fun _ s₁ => ?_
  exact mirrors_get (mirrors_pure rfl)

theorem typeSuffixes_mirrors (n : Nat) (t : TypeExpr) (s : ParserState) :
    Mirrors σ (Gives (·.mapSpans σ.span)) (typeSuffixes n t) (typeSuffixes n (t.mapSpans σ.span)) s := by
  induction n generalizing t s with
  | zero => exact mirrors_pure rfl
  | succ n ih =>
    refine mirrors_get ?_
    rw [lineStart_state, peek_state, ahead_state]
    split
    · exact mirrors_pure rfl
    · split
      case h_1 =>
        refine (longIdent?_mirrors s).andThen fun found s₁ => ?_
        cases found with
        | none => exact mirrors_pure rfl
        | some ctor =>
          dsimp only [Option.map_some]
          rw [TypeExpr.span_mapSpans, span_longIdent, ← span_merge]
          exact ih (.app _ t ctor) s₁
      case h_2 =>
        split
        · refine (skip_mirrors s).andThen fun _ s₁ => ?_
          refine (bump_mirrors s₁).bind fun close close' s₂ hclose => ?_
          rw [hclose, TypeExpr.span_mapSpans, ← span_merge]
          exact ih (.array _ t) s₂
        · exact mirrors_pure rfl
      case h_3 => exact mirrors_pure rfl

structure TypesMirror (σ : Shift) (n : Nat) : Prop where
  type : ∀ s, Mirrors σ (Gives (·.mapSpans σ.span)) (type n) (type n) s
  tupleType : ∀ s, Mirrors σ (Gives (·.mapSpans σ.span)) (tupleType n) (tupleType n) s
  tupleTypeItems : ∀ s, Mirrors σ (Gives (List.map (·.mapSpans σ.span))) (tupleTypeItems n) (tupleTypeItems n) s
  suffixedType : ∀ s, Mirrors σ (Gives (·.mapSpans σ.span)) (suffixedType n) (suffixedType n) s
  atomicType : ∀ s, Mirrors σ (Gives (·.mapSpans σ.span)) (atomicType n) (atomicType n) s

theorem type_mirrors (ih : TypesMirror σ n) (s : ParserState) :
    Mirrors σ (Gives (·.mapSpans σ.span)) (type (n + 1)) (type (n + 1)) s := by
  refine (ih.tupleType s).andThen fun lhs s₁ => mirrors_get ?_
  rw [peek_state, isOffside_state]
  split
  · refine (skip_mirrors s₁).andThen fun _ s₂ => (ih.type s₂).andThen fun rhs s₃ => mirrors_pure ?_
    rw [TypeExpr.span_mapSpans, TypeExpr.span_mapSpans, ← span_merge]
    rfl
  · exact mirrors_pure rfl

theorem tupleType_mirrors (ih : TypesMirror σ n) (s : ParserState) :
    Mirrors σ (Gives (·.mapSpans σ.span)) (tupleType (n + 1)) (tupleType (n + 1)) s := by
  refine (ih.suffixedType s).andThen fun first s₁ => (ih.tupleTypeItems s₁).andThen fun more s₂ => ?_
  rw [List.getLast?_map]
  cases more.getLast? with
  | none => exact mirrors_pure rfl
  | some last =>
    refine mirrors_pure ?_
    rw [Gives, TypeExpr.mapSpans_tuple, TypeExpr.span_mapSpans, TypeExpr.span_mapSpans, span_merge]
    rfl

theorem tupleTypeItems_mirrors (ih : TypesMirror σ n) (s : ParserState) :
    Mirrors σ (Gives (List.map (·.mapSpans σ.span))) (tupleTypeItems (n + 1)) (tupleTypeItems (n + 1)) s := by
  refine mirrors_get ?_
  rw [peek_state, isOffside_state]
  split
  · refine (skip_mirrors s).andThen fun _ s₁ => (ih.suffixedType s₁).andThen fun item s₂ => ?_
    exact (ih.tupleTypeItems s₂).andThen fun more s₃ => mirrors_pure rfl
  · exact mirrors_pure rfl

theorem atomicType_mirrors (ih : TypesMirror σ n) (s : ParserState) :
    Mirrors σ (Gives (·.mapSpans σ.span)) (atomicType (n + 1)) (atomicType (n + 1)) s := by
  refine mirrors_get ?_
  rw [isOffside_state, peek_state]
  split
  · exact missingType_mirrors s
  · split
    case h_1 =>
      refine (longIdent?_mirrors s).andThen fun found s₁ => ?_
      cases found with
      | none => exact missingType_mirrors s₁
      | some name => 
        refine mirrors_pure ?_
        rw [span_longIdent]
        rfl
    case h_2 text _ =>
      refine (bump_mirrors s).bind fun t t' s₁ ht => mirrors_pure ?_
      rw [ht]
      rfl
    case h_3 =>
      refine (bump_mirrors s).bind fun opener opener' s₁ hopener => ?_
      refine (nested_mirrors ih.type s₁).andThen fun inner s₂ => ?_
      rw [hopener]
      refine (closing_mirrors _ rfl s₂).andThen fun stop s₃ => mirrors_pure ?_
      exact (TypeExpr.withSpan_mapSpans σ.span ⟨opener.span.start, stop⟩ inner).symm
    case h_4 => exact missingType_mirrors s

theorem typesMirror (σ : Shift) (n : Nat) : TypesMirror σ n := by
  induction n with
  | zero =>
    exact ⟨missingType_mirrors, missingType_mirrors, fun s => mirrors_pure rfl, missingType_mirrors, missingType_mirrors⟩
  | succ n ih =>
    refine ⟨type_mirrors ih, tupleType_mirrors ih, tupleTypeItems_mirrors ih, fun s => ?_, atomicType_mirrors ih⟩
    exact (ih.atomicType s).andThen fun atom => typeSuffixes_mirrors n atom

/-! Patterns -/

theorem invalidPattern_mirrors (s : ParserState) :
    Mirrors σ (Gives (·.mapSpans σ.span)) invalidPattern invalidPattern s := by
  refine mirrors_get ?_
  dsimp only
  rw [span_state]
  exact (error_mirrors rfl s).andThen fun _ s₁ => mirrors_pure rfl

structure PatternsMirror (σ : Shift) (n : Nat) : Prop where
  atomicPattern : ∀ s, Mirrors σ (Gives (·.mapSpans σ.span)) (atomicPattern n) (atomicPattern n) s
  tuplePattern : ∀ s, Mirrors σ (Gives (·.mapSpans σ.span)) (tuplePattern n) (tuplePattern n) s
  tuplePatternItems : ∀ item s, Mirrors σ (Gives (List.map (·.mapSpans σ.span))) (tuplePatternItems n item)
    (tuplePatternItems n (item.mapSpans σ.span)) s
  annotatedPattern : ∀ s, Mirrors σ (Gives (·.mapSpans σ.span)) (annotatedPattern n) (annotatedPattern n) s

theorem atomicPattern_mirrors (ih : PatternsMirror σ n) (s : ParserState) :
    Mirrors σ (Gives (·.mapSpans σ.span)) (atomicPattern (n + 1)) (atomicPattern (n + 1)) s := by
  refine mirrors_get ?_
  dsimp only
  rw [token_state, span_state]
  split
  case h_1 text _ =>
    refine (skip_mirrors s).andThen fun _ s₁ => mirrors_pure ?_
    split <;> rfl
  case h_2 =>
    refine (skip_mirrors s).andThen fun _ s₁ => (eat_mirrors _ s₁).andThen fun found s₂ => ?_
    cases found with
    | some close =>
      refine mirrors_pure ?_
      rw [← span_merge]
      rfl
    | none =>
      refine (nested_mirrors ih.tuplePattern s₂).andThen fun inner s₃ => ?_
      refine (closing_mirrors _ rfl s₃).andThen fun stop s₄ => mirrors_pure ?_
      exact (Pattern.withSpan_mapSpans σ.span ⟨s.current.span.start, stop⟩ inner).symm
  case h_3 => exact invalidPattern_mirrors s

theorem tuplePattern_mirrors (ih : PatternsMirror σ n) (s : ParserState) :
    Mirrors σ (Gives (·.mapSpans σ.span)) (tuplePattern (n + 1)) (tuplePattern (n + 1)) s := by
  refine (ih.annotatedPattern s).andThen fun first s₁ => (ih.tuplePatternItems first s₁).andThen fun more s₂ => ?_
  rw [List.getLast?_map]
  cases more.getLast? with
  | none => exact mirrors_pure rfl
  | some last =>
    refine mirrors_pure ?_
    rw [Gives, Pattern.mapSpans_tuple, Pattern.span_mapSpans, Pattern.span_mapSpans, span_merge]
    rfl

theorem tuplePatternItems_mirrors (ih : PatternsMirror σ n) (item : Pattern) (s : ParserState) :
    Mirrors σ (Gives (List.map (·.mapSpans σ.span))) (tuplePatternItems (n + 1) item)
      (tuplePatternItems (n + 1) (item.mapSpans σ.span)) s := by
  rw [tuplePatternItems, tuplePatternItems, Pattern.isError_mapSpans]
  split
  · exact mirrors_pure rfl
  · refine (eat_mirrors _ s).andThen fun found s₁ => ?_
    cases found with
    | none => exact mirrors_pure rfl
    | some _ =>
      refine (ih.annotatedPattern s₁).andThen fun item s₂ => ?_
      exact (ih.tuplePatternItems item s₂).andThen fun more s₃ => mirrors_pure rfl

theorem annotatedPattern_mirrors (ih : PatternsMirror σ n) (s : ParserState) :
    Mirrors σ (Gives (·.mapSpans σ.span)) (annotatedPattern (n + 1)) (annotatedPattern (n + 1)) s := by
  refine (ih.atomicPattern s).andThen fun pattern s₁ => (eat_mirrors _ s₁).andThen fun found s₂ => ?_
  cases found with
  | none => exact mirrors_pure rfl
  | some _ =>
    refine ((typesMirror σ n).type s₂).andThen fun annotation s₃ => mirrors_pure ?_
    rw [Pattern.span_mapSpans, TypeExpr.span_mapSpans, ← span_merge]
    rfl

theorem patternsMirror (σ : Shift) (n : Nat) : PatternsMirror σ n := by
  induction n with
  | zero => exact ⟨invalidPattern_mirrors, invalidPattern_mirrors, fun _ s => mirrors_pure rfl, invalidPattern_mirrors⟩
  | succ n ih =>
    exact ⟨atomicPattern_mirrors ih, tuplePattern_mirrors ih, tuplePatternItems_mirrors ih, annotatedPattern_mirrors ih⟩

theorem params_mirrors (n : Nat) (s : ParserState) :
    Mirrors σ (Gives (List.map (·.mapSpans σ.span))) (params n) (params n) s := by
  induction n generalizing s with
  | zero => exact mirrors_pure rfl
  | succ n ih =>
    refine mirrors_get ?_
    rw [peek_state, isOffside_state]
    split
    case h_1 | h_2 =>
      split
      · exact mirrors_pure rfl
      · refine ((patternsMirror σ n).atomicPattern s).andThen fun p s₁ => ?_
        exact (ih s₁).andThen fun ps s₂ => mirrors_pure rfl
    case h_3 => exact mirrors_pure rfl

/-! Steps of expressions -/

theorem errorHere_mirrors (s : ParserState) : Mirrors σ (Gives (·.mapSpans σ.span)) errorHere errorHere s :=
  mirrors_get (mirrors_pure rfl)

theorem missingExpr_mirrors (s : ParserState) : Mirrors σ (Gives (·.mapSpans σ.span)) missingExpr missingExpr s := by
  refine mirrors_get ?_
  exact (error_mirrors rfl s).andThen fun _ s₁ => mirrors_pure rfl

theorem behind_mirrors (token : Token) (what : String) {p : Parser Expr}
    (h : ∀ s, Mirrors σ (Gives (·.mapSpans σ.span)) p p s) (s : ParserState) :
    Mirrors σ (Gives (·.mapSpans σ.span)) (behind token what p) (behind token what p) s := by
  refine (expect_mirrors token what s).andThen fun found s₁ => ?_
  cases found with
  | some _ => exact h s₁
  | none => exact errorHere_mirrors s₁

theorem literal?_mirrors {t t' : LaidToken} (htoken : t'.token = t.token) (hspan : t'.span = σ.span t.span)
    (s : ParserState) : Mirrors σ (Gives id) (literal? t) (literal? t') s := by
  rw [literal?, literal?, htoken, hspan]
  split
  case h_1 text _ =>
    dsimp only
    split
    · exact mirrors_pure rfl
    · exact (error_mirrors rfl s).andThen fun _ s₁ => mirrors_pure rfl
  all_goals exact mirrors_pure rfl

theorem atStatement_mirrors (column : Nat) (s : ParserState) :
    Mirrors σ (Gives id) (atStatement column) (atStatement (column + σ.column)) s := by
  refine mirrors_get (mirrors_pure ?_)
  rw [peek_state, atEnd_state, lineStart_state]
  cases h : s.atEnd with
  | true => rfl
  | false =>
    rw [column_state s h, Gives, id, beq_eq_beq.mpr Nat.add_right_cancel_iff]

theorem sequenceItems_mirrors {α β : Type} {φ : α → β} (close : Punct) {unclosed unclosed' : SyntaxError}
    (hunclosed : unclosed' = unclosed.mapSpan σ.span) {item : Parser (Option α)} {item' : Parser (Option β)}
    (hitem : ∀ s, Mirrors σ (Gives (Option.map φ)) item item' s) (n : Nat) (s : ParserState) :
    Mirrors σ (Gives fun r => (r.1.map φ, σ.place r.2)) (sequenceItems close unclosed item n)
      (sequenceItems close unclosed' item' n) s := by
  induction n generalizing s with
  | zero => exact mirrors_get (mirrors_pure rfl)
  | succ n ih =>
    refine (eat_mirrors _ s).andThen fun found s₁ => ?_
    cases found with
    | some span => exact mirrors_pure rfl
    | none =>
      refine mirrors_get ?_
      rw [offside_state, beforeColumn_state, length_state]
      split
      · exact (report_mirrors hunclosed s₁).andThen fun _ s₂ => mirrors_pure rfl
      · refine (eat_mirrors _ s₁).andThen fun found s₂ => ?_
        cases found with
        | some span => exact ih s₂
        | none =>
          refine (setAnchor_mirrors s₂).andThen fun _ s₃ => (hitem s₃).andThen fun found s₄ => ?_
          refine (ifStuck_mirrors _ reject_mirrors s₄).andThen fun _ s₅ => (ih s₅).andThen fun r s₆ => ?_
          refine mirrors_pure ?_
          cases found <;> rfl

theorem max_column_state (s : ParserState) :
    max (σ.state s).offside (σ.state s).current.column = max s.offside s.current.column + σ.column := by
  cases h : s.atEnd with
  | true =>
    have hcurrent : s.current.column = 0 := by rw [current, List.isEmpty_iff.mp h]; rfl
    have hcurrent' : (σ.state s).current.column = 0 := by
      rw [current, List.isEmpty_iff.mp ((atEnd_state s).trans h)]
      rfl
    rw [hcurrent, hcurrent', Nat.max_zero, Nat.max_zero, offside_state]
  | false => rw [offside_state, column_state s h, Nat.add_max_add_right]

theorem bracketed_mirrors {α β : Type} {φ : α → β} (close : Punct) (delimiter : Char) {item : Parser (Option α)}
    {item' : Parser (Option β)} (hitem : ∀ s, Mirrors σ (Gives (Option.map φ)) item item' s) (n : Nat)
    (s : ParserState) :
    Mirrors σ (Gives fun r => (r.1.map φ, σ.place r.2)) (bracketed close delimiter item n)
      (bracketed close delimiter item' n) s := by
  refine (bump_mirrors s).bind fun opener opener' s₁ hopener => mirrors_get ?_
  rw [max_column_state, hopener]
  exact nested_mirrors (withOffside_mirrors _ (sequenceItems_mirrors close rfl hitem n)) s₁

theorem bindingPattern_mirrors {p : Parser Pattern} (h : ∀ s, Mirrors σ (Gives (·.mapSpans σ.span)) p p s)
    (s : ParserState) : Mirrors σ (Gives (·.mapSpans σ.span)) (bindingPattern p) (bindingPattern p) s := by
  refine mirrors_get ?_
  rw [peek_state]
  split
  case h_1 | h_2 => exact h s
  case h_3 =>
    refine (missing_mirrors _ s).andThen fun _ s₁ => ?_
    exact mirrors_get (mirrors_pure rfl)

theorem blockRest_mirrors (column : Nat) (b : Binding) {p q : Parser Expr}
    (h : ∀ s, Mirrors σ (Gives (·.mapSpans σ.span)) p q s) (s : ParserState) :
    Mirrors σ (Gives (·.mapSpans σ.span)) (blockRest column b p)
      (blockRest (column + σ.column) (b.mapSpans σ.span) q) s := by
  refine (atStatement_mirrors column s).andThen fun found s₁ => ?_
  rw [id]
  split
  · exact h s₁
  · refine (report_mirrors ?_ s₁).andThen fun _ => errorHere_mirrors
    have hname : (b.mapSpans σ.span).name? = b.name?.map (·.mapSpans σ.span) := Pattern.name?_mapSpans σ.span b.pattern
    have hpattern : (b.mapSpans σ.span).pattern.span = σ.span b.pattern.span := Pattern.span_mapSpans σ.span b.pattern
    rw [hname, hpattern]
    cases b.name? <;> rfl

theorem thenPart_mirrors {p : Parser Expr} (h : ∀ s, Mirrors σ (Gives (·.mapSpans σ.span)) p p s) (s : ParserState) :
    Mirrors σ (Gives (·.mapSpans σ.span)) (thenPart p) (thenPart p) s := by
  refine mirrors_get ?_
  rw [offside_state, beforeColumn_state]
  split
  · exact (missing_mirrors _ s).andThen fun _ => errorHere_mirrors
  · exact behind_mirrors _ _ h s

theorem elsePart_mirrors {p : Parser Expr} (h : ∀ s, Mirrors σ (Gives (·.mapSpans σ.span)) p p s) (s : ParserState) :
    Mirrors σ (Gives (Option.map (·.mapSpans σ.span))) (elsePart p) (elsePart p) s := by
  refine mirrors_get ?_
  rw [offside_state, beforeColumn_state, peek_state]
  split
  · exact (skip_mirrors s).andThen fun _ s₁ => (h s₁).andThen fun e s₂ => mirrors_pure rfl
  · exact mirrors_pure rfl

theorem rightOperand_mirrors {p q : Parser Expr} (hp : ∀ s, Mirrors σ (Gives (·.mapSpans σ.span)) p p s)
    (hq : ∀ s, Mirrors σ (Gives (·.mapSpans σ.span)) q q s) (s : ParserState) :
    Mirrors σ (Gives (·.mapSpans σ.span)) (rightOperand p q) (rightOperand p q) s := by
  refine mirrors_get ?_
  rw [peek_state]
  split
  · exact hp s
  · exact hq s

theorem memberName?_mirrors (s : ParserState) :
    Mirrors σ (Gives (Option.map (·.mapSpans σ.span))) memberName? memberName? s := by
  refine mirrors_get ?_
  rw [isOffside_state]
  split
  · exact mirrors_pure rfl
  · exact ident?_mirrors s

theorem parentheses_mirrors (opener : Span) (close : Option Span) (s : ParserState) :
    Mirrors σ (Gives σ.span) (parentheses opener close) (parentheses (σ.span opener) (close.map σ.span)) s := by
  cases close with
  | some close => exact mirrors_pure span_merge.symm
  | none => exact (report_mirrors rfl s).andThen fun _ s₁ => mirrors_get (mirrors_pure rfl)

/-! Expressions -/

structure ExprsMirror (σ : Shift) (n : Nat) : Prop where
  binding : ∀ s, Mirrors σ (Gives (·.mapSpans σ.span)) (binding n) (binding n) s
  letScope : ∀ b s, Mirrors σ (Gives (·.mapSpans σ.span)) (letScope n b) (letScope n (b.mapSpans σ.span)) s
  body : ∀ s, Mirrors σ (Gives (·.mapSpans σ.span)) (body n) (body n) s
  statements : ∀ column s, Mirrors σ (Gives (·.mapSpans σ.span)) (statements n column)
    (statements n (column + σ.column)) s
  expr : ∀ s, Mirrors σ (Gives (·.mapSpans σ.span)) (expr n) (expr n) s
  tupleItems : ∀ s, Mirrors σ (Gives (List.map (·.mapSpans σ.span))) (tupleItems n) (tupleItems n) s
  simpleExpr : ∀ s, Mirrors σ (Gives (·.mapSpans σ.span)) (simpleExpr n) (simpleExpr n) s
  conditional : ∀ s, Mirrors σ (Gives (·.mapSpans σ.span)) (conditional n) (conditional n) s
  lambda : ∀ s, Mirrors σ (Gives (·.mapSpans σ.span)) (lambda n) (lambda n) s
  operand : ∀ power s, Mirrors σ (Gives (·.mapSpans σ.span)) (operand n power) (operand n power) s
  operations : ∀ power lhs s, Mirrors σ (Gives (·.mapSpans σ.span)) (operations n power lhs)
    (operations n power (lhs.mapSpans σ.span)) s
  unary : ∀ s, Mirrors σ (Gives (·.mapSpans σ.span)) (unary n) (unary n) s
  arguments : ∀ function s, Mirrors σ (Gives (·.mapSpans σ.span)) (arguments n function)
    (arguments n (function.mapSpans σ.span)) s
  accessed : ∀ s, Mirrors σ (Gives (·.mapSpans σ.span)) (accessed n) (accessed n) s
  accesses : ∀ target s, Mirrors σ (Gives (·.mapSpans σ.span)) (accesses n target)
    (accesses n (target.mapSpans σ.span)) s
  callArguments : ∀ s, Mirrors σ (Gives fun r => (r.1.map (·.mapSpans σ.span), r.2.map σ.span)) (callArguments n)
    (callArguments n) s
  atom : ∀ s, Mirrors σ (Gives (·.mapSpans σ.span)) (atom n) (atom n) s
  parenthesised : ∀ s, Mirrors σ (Gives (·.mapSpans σ.span)) (parenthesised n) (parenthesised n) s
  annotated : ∀ s, Mirrors σ (Gives (·.mapSpans σ.span)) (annotated n) (annotated n) s
  recordField : ∀ s, Mirrors σ (Gives (Option.map fun f => (f.1.mapSpans σ.span, f.2.mapSpans σ.span)))
    (recordField n) (recordField n) s

theorem binding_mirrors (ih : ExprsMirror σ n) (s : ParserState) :
    Mirrors σ (Gives (·.mapSpans σ.span)) (binding (n + 1)) (binding (n + 1)) s := by
  refine (bump_mirrors s).bind fun letToken letToken' s₁ hlet => (eat_mirrors _ s₁).andThen fun recToken s₂ => ?_
  refine (bindingPattern_mirrors (patternsMirror σ n).atomicPattern s₂).andThen fun pattern s₃ => ?_
  refine (params_mirrors n s₃).andThen fun parameters s₄ => ?_
  rw [List.isEmpty_map, Pattern.isNamed_mapSpans, Pattern.span_mapSpans]
  refine (when_mirrors (error_mirrors rfl) s₄).andThen fun _ s₅ => ?_
  refine (behind?_mirrors _ (typesMirror σ n).type s₅).andThen fun returnType s₆ => ?_
  refine (behind_mirrors _ _ ih.body s₆).andThen fun value s₇ => mirrors_get (mirrors_pure ?_)
  rw [hlet, Option.isSome_map]
  rfl

theorem letScope_mirrors (ih : ExprsMirror σ n) (b : Binding) (s : ParserState) :
    Mirrors σ (Gives (·.mapSpans σ.span)) (letScope (n + 1) b) (letScope (n + 1) (b.mapSpans σ.span)) s := by
  refine (skip_mirrors s).andThen fun _ s₁ => (ih.body s₁).andThen fun scope s₂ => mirrors_pure ?_
  have hspan : (b.mapSpans σ.span).span = σ.span b.span := rfl
  rw [hspan, Expr.span_mapSpans, ← span_merge]
  rfl

theorem body_mirrors (ih : ExprsMirror σ n) (s : ParserState) :
    Mirrors σ (Gives (·.mapSpans σ.span)) (body (n + 1)) (body (n + 1)) s := by
  refine mirrors_get ?_
  rw [atEnd_state, lineStart_state, offside_state]
  cases h : s.atEnd with
  | true => exact missingExpr_mirrors s
  | false =>
    simp only [column_state s h, Nat.add_le_add_iff_right]
    split
    · exact missingExpr_mirrors s
    · split
      · exact withOffside_mirrors _ (ih.statements _) s
      · exact ih.expr s

theorem statements_mirrors (ih : ExprsMirror σ n) (column : Nat) (s : ParserState) :
    Mirrors σ (Gives (·.mapSpans σ.span)) (statements (n + 1) column) (statements (n + 1) (column + σ.column)) s := by
  refine mirrors_get ?_
  rw [peek_state]
  split
  · refine (ih.binding s).andThen fun b s₁ => mirrors_get ?_
    rw [peek_state]
    split
    · exact ih.letScope b s₁
    · refine (skipStray_mirrors s₁).andThen fun _ s₂ => ?_
      refine (blockRest_mirrors column b (ih.statements column) s₂).andThen fun scope s₃ => mirrors_pure ?_
      have hspan : (b.mapSpans σ.span).span = σ.span b.span := rfl
      rw [hspan, Expr.span_mapSpans, ← span_merge]
      rfl
  · refine mirrors_get ?_
    rw [length_state]
    refine (setAnchor_mirrors s).andThen fun _ s₁ => (ih.expr s₁).andThen fun first s₂ => ?_
    refine (ifStuck_mirrors _ skip_mirrors s₂).andThen fun _ s₃ => (skipStray_mirrors s₃).andThen fun _ s₄ => ?_
    refine (atStatement_mirrors column s₄).andThen fun found s₅ => ?_
    rw [id]
    split
    · refine (ih.statements column s₅).andThen fun second s₆ => mirrors_pure ?_
      rw [Expr.span_mapSpans, Expr.span_mapSpans, ← span_merge]
      rfl
    · exact mirrors_pure rfl

theorem expr_mirrors (ih : ExprsMirror σ n) (s : ParserState) :
    Mirrors σ (Gives (·.mapSpans σ.span)) (expr (n + 1)) (expr (n + 1)) s := by
  refine (ih.simpleExpr s).andThen fun first s₁ => (ih.tupleItems s₁).andThen fun more s₂ => ?_
  rw [List.getLast?_map]
  cases more.getLast? with
  | none => exact mirrors_pure rfl
  | some last =>
    refine mirrors_pure ?_
    rw [Gives, Expr.mapSpans_tuple, Expr.span_mapSpans, Expr.span_mapSpans, span_merge]
    rfl

theorem tupleItems_mirrors (ih : ExprsMirror σ n) (s : ParserState) :
    Mirrors σ (Gives (List.map (·.mapSpans σ.span))) (tupleItems (n + 1)) (tupleItems (n + 1)) s := by
  refine mirrors_get ?_
  rw [peek_state, isOffside_state]
  split
  · refine (skip_mirrors s).andThen fun _ s₁ => (ih.simpleExpr s₁).andThen fun item s₂ => ?_
    exact (ih.tupleItems s₂).andThen fun more s₃ => mirrors_pure rfl
  · exact mirrors_pure rfl

theorem simpleExpr_mirrors (ih : ExprsMirror σ n) (s : ParserState) :
    Mirrors σ (Gives (·.mapSpans σ.span)) (simpleExpr (n + 1)) (simpleExpr (n + 1)) s := by
  refine mirrors_get ?_
  rw [peek_state]
  split
  case h_1 =>
    refine (ih.binding s).andThen fun b s₁ => mirrors_get ?_
    rw [peek_state]
    split
    · exact ih.letScope b s₁
    · have hpattern : (b.mapSpans σ.span).pattern.span = σ.span b.pattern.span := Pattern.span_mapSpans σ.span b.pattern
      rw [hpattern]
      exact (error_mirrors rfl s₁).andThen fun _ s₂ => mirrors_pure rfl
  case h_2 => exact ih.conditional s
  case h_3 => exact ih.lambda s
  case h_4 => exact ih.operand 0 s

theorem conditional_mirrors (ih : ExprsMirror σ n) (s : ParserState) :
    Mirrors σ (Gives (·.mapSpans σ.span)) (conditional (n + 1)) (conditional (n + 1)) s := by
  refine (bump_mirrors s).bind fun ifToken ifToken' s₁ hif => (ih.expr s₁).andThen fun condition s₂ => ?_
  refine (thenPart_mirrors ih.body s₂).andThen fun thenBranch s₃ => ?_
  refine (elsePart_mirrors ih.body s₃).andThen fun elseBranch s₄ => mirrors_get (mirrors_pure ?_)
  rw [hif, Gives, Expr.mapSpans_conditional]
  rfl

theorem lambda_mirrors (ih : ExprsMirror σ n) (s : ParserState) :
    Mirrors σ (Gives (·.mapSpans σ.span)) (lambda (n + 1)) (lambda (n + 1)) s := by
  refine (bump_mirrors s).bind fun funToken funToken' s₁ hfun => (params_mirrors n s₁).andThen fun parameters s₂ => ?_
  rw [List.isEmpty_map]
  refine (when_mirrors (missing_mirrors _) s₂).andThen fun _ s₃ => ?_
  refine (behind_mirrors _ _ ih.body s₃).andThen fun value s₄ => mirrors_get (mirrors_pure ?_)
  rw [hfun]
  rfl

theorem operations_mirrors (ih : ExprsMirror σ n) (power : Nat) (lhs : Expr) (s : ParserState) :
    Mirrors σ (Gives (·.mapSpans σ.span)) (operations (n + 1) power lhs)
      (operations (n + 1) power (lhs.mapSpans σ.span)) s := by
  refine mirrors_get ?_
  rw [peek_state, isOffside_state]
  split
  case h_1 => exact mirrors_pure rfl
  case h_2 op left right _ =>
    split
    · exact mirrors_pure rfl
    · refine (bump_mirrors s).bind fun opToken opToken' s₁ hop => ?_
      refine (rightOperand_mirrors ih.simpleExpr (ih.operand right) s₁).andThen fun rhs s₂ => ?_
      dsimp only
      rw [hop, Expr.span_mapSpans, Expr.span_mapSpans, ← span_merge, ← span_merge]
      exact ih.operations power (.binary _ op opToken.span lhs rhs) s₂

theorem unary_mirrors (ih : ExprsMirror σ n) (s : ParserState) :
    Mirrors σ (Gives (·.mapSpans σ.span)) (unary (n + 1)) (unary (n + 1)) s := by
  refine mirrors_get ?_
  rw [peek_state, isOffside_state]
  split
  · refine (bump_mirrors s).bind fun minus minus' s₁ hminus => (ih.unary s₁).andThen fun inner s₂ => mirrors_pure ?_
    rw [hminus, Expr.span_mapSpans, ← span_merge]
    rfl
  · exact (ih.accessed s).andThen fun function s₁ => ih.arguments function s₁

theorem arguments_mirrors (ih : ExprsMirror σ n) (function : Expr) (s : ParserState) :
    Mirrors σ (Gives (·.mapSpans σ.span)) (arguments (n + 1) function)
      (arguments (n + 1) (function.mapSpans σ.span)) s := by
  refine mirrors_get ?_
  rw [peek_state, isOffside_state]
  split
  · refine (ih.accessed s).andThen fun argument s₁ => ?_
    rw [Expr.span_mapSpans, Expr.span_mapSpans, ← span_merge]
    exact ih.arguments (.app _ function argument) s₁
  · exact mirrors_pure rfl

theorem accesses_mirrors (ih : ExprsMirror σ n) (target : Expr) (s : ParserState) :
    Mirrors σ (Gives (·.mapSpans σ.span)) (accesses (n + 1) target) (accesses (n + 1) (target.mapSpans σ.span)) s := by
  refine mirrors_get ?_
  rw [peek_state, isOffside_state]
  split
  case h_1 =>
    split
    · exact mirrors_pure rfl
    · refine (bump_mirrors s).bind fun dot dot' s₁ hdot => (memberName?_mirrors s₁).andThen fun name s₂ => ?_
      cases name with
      | some name =>
        have hname : (name.mapSpans σ.span).span = σ.span name.span := rfl
        dsimp only [Option.map_some]
        rw [hdot, Expr.span_mapSpans, hname, ← span_merge]
        exact ih.accesses (.member _ target dot.span (some name)) s₂
      | none =>
        dsimp only [Option.map_none]
        rw [hdot, Expr.span_mapSpans, ← span_merge]
        refine (report_mirrors rfl s₂).andThen fun _ s₃ => ?_
        exact ih.accesses (.member _ target dot.span none) s₃
  case h_2 =>
    have hplace : (σ.state s).current.span.start ≠ (target.mapSpans σ.span).span.stop ↔
        s.current.span.start ≠ target.span.stop := by
      rw [span_state, Expr.span_mapSpans]
      exact not_congr σ.strict.injective.eq_iff
    rw [lineStart_state]
    simp only [hplace]
    split
    · exact mirrors_pure rfl
    · refine (bump_mirrors s).bind fun opener opener' s₁ hopener => ?_
      refine (nested_mirrors ih.callArguments s₁).andThen fun r s₂ => ?_
      dsimp only
      rw [hopener]
      refine (parentheses_mirrors opener.span r.2 s₂).andThen fun parens s₃ => ?_
      rw [Expr.span_mapSpans, ← span_merge, ← Expr.mapSpans_call]
      exact ih.accesses (.call _ target r.1 parens) s₃
  case h_3 => exact mirrors_pure rfl

theorem callArguments_mirrors (ih : ExprsMirror σ n) (s : ParserState) :
    Mirrors σ (Gives fun r => (r.1.map (·.mapSpans σ.span), r.2.map σ.span)) (callArguments (n + 1))
      (callArguments (n + 1)) s := by
  refine (eat_mirrors _ s).andThen fun found s₁ => ?_
  cases found with
  | some close => exact mirrors_pure rfl
  | none =>
    refine mirrors_get ?_
    rw [isOffside_state, length_state]
    split
    · exact mirrors_pure rfl
    · refine (ih.simpleExpr s₁).andThen fun arg s₂ => (eat_mirrors _ s₂).andThen fun found s₃ => ?_
      cases found with
      | some _ => exact (ih.callArguments s₃).andThen fun r s₄ => mirrors_pure rfl
      | none =>
        refine mirrors_get ?_
        rw [length_state, peek_state]
        split
        · exact mirrors_pure rfl
        · exact (ih.callArguments s₃).andThen fun r s₄ => mirrors_pure rfl

theorem atom_mirrors (ih : ExprsMirror σ n) (s : ParserState) :
    Mirrors σ (Gives (·.mapSpans σ.span)) (atom (n + 1)) (atom (n + 1)) s := by
  refine mirrors_get ?_
  rw [isOffside_state]
  dsimp only
  rw [token_state, span_state]
  split
  · exact missingExpr_mirrors s
  · split
    case h_1 => exact (skip_mirrors s).andThen fun _ s₁ => mirrors_pure rfl
    case h_2 => exact ih.parenthesised s
    case h_3 =>
      refine (bracketed_mirrors _ _ (fun s => (ih.expr s).map_some) n s).andThen fun r s₁ => mirrors_pure ?_
      rw [Gives, Expr.mapSpans_list]
      rfl
    case h_4 =>
      refine (bracketed_mirrors _ _ ih.recordField n s).andThen fun r s₁ => mirrors_pure ?_
      rw [Gives, Expr.mapSpans_record]
      rfl
    case h_5 | h_6 | h_7 => exact ih.simpleExpr s
    case h_8 =>
      refine (literal?_mirrors (token_state s) (span_state s) s).andThen fun value s₁ => ?_
      cases value with
      | some value => exact (skip_mirrors s₁).andThen fun _ s₂ => mirrors_pure rfl
      | none => exact (error_mirrors rfl s₁).andThen fun _ s₂ => mirrors_pure rfl

theorem parenthesised_mirrors (ih : ExprsMirror σ n) (s : ParserState) :
    Mirrors σ (Gives (·.mapSpans σ.span)) (parenthesised (n + 1)) (parenthesised (n + 1)) s := by
  refine (bump_mirrors s).bind fun opener opener' s₁ hopener => (eat_mirrors _ s₁).andThen fun found s₂ => ?_
  rw [hopener]
  cases found with
  | some close =>
    refine mirrors_pure ?_
    rw [← span_merge]
    rfl
  | none =>
    refine (nested_mirrors ih.annotated s₂).andThen fun inner s₃ => ?_
    exact (closing_mirrors _ rfl s₃).andThen fun stop s₄ => mirrors_pure rfl

theorem annotated_mirrors (ih : ExprsMirror σ n) (s : ParserState) :
    Mirrors σ (Gives (·.mapSpans σ.span)) (annotated (n + 1)) (annotated (n + 1)) s := by
  refine (ih.expr s).andThen fun inner s₁ => mirrors_get ?_
  rw [peek_state, isOffside_state]
  split
  · refine (skip_mirrors s₁).andThen fun _ s₂ => ((typesMirror σ n).type s₂).andThen fun annotation s₃ => ?_
    refine mirrors_pure ?_
    rw [Expr.span_mapSpans, TypeExpr.span_mapSpans, ← span_merge]
    rfl
  · exact mirrors_pure rfl

theorem recordField_mirrors (ih : ExprsMirror σ n) (s : ParserState) :
    Mirrors σ (Gives (Option.map fun f => (f.1.mapSpans σ.span, f.2.mapSpans σ.span))) (recordField (n + 1))
      (recordField (n + 1)) s := by
  refine (ident?_mirrors s).andThen fun name s₁ => ?_
  cases name with
  | none => exact mirrors_pure rfl
  | some name => exact (behind_mirrors _ _ ih.expr s₁).andThen fun value s₂ => mirrors_pure rfl

theorem exprsMirror (σ : Shift) (n : Nat) : ExprsMirror σ n := by
  induction n with
  | zero =>
    exact {
      binding := fun s => mirrors_get (mirrors_pure rfl)
      letScope := fun b s => mirrors_pure rfl
      body := missingExpr_mirrors
      statements := fun _ => missingExpr_mirrors
      expr := missingExpr_mirrors
      tupleItems := fun s => mirrors_pure rfl
      simpleExpr := missingExpr_mirrors
      conditional := missingExpr_mirrors
      lambda := missingExpr_mirrors
      operand := fun _ => missingExpr_mirrors
      operations := fun _ lhs s => mirrors_pure rfl
      unary := missingExpr_mirrors
      arguments := fun function s => mirrors_pure rfl
      accessed := missingExpr_mirrors
      accesses := fun target s => mirrors_pure rfl
      callArguments := fun s => mirrors_pure rfl
      atom := missingExpr_mirrors
      parenthesised := missingExpr_mirrors
      annotated := missingExpr_mirrors
      recordField := fun s => mirrors_pure rfl }
  | succ n ih =>
    exact {
      binding := binding_mirrors ih
      letScope := letScope_mirrors ih
      body := body_mirrors ih
      statements := statements_mirrors ih
      expr := expr_mirrors ih
      tupleItems := tupleItems_mirrors ih
      simpleExpr := simpleExpr_mirrors ih
      conditional := conditional_mirrors ih
      lambda := lambda_mirrors ih
      operand := fun power s => (ih.unary s).andThen fun lhs => ih.operations power lhs
      operations := operations_mirrors ih
      unary := unary_mirrors ih
      arguments := arguments_mirrors ih
      accessed := fun s => (ih.atom s).andThen fun target => ih.accesses target
      accesses := accesses_mirrors ih
      callArguments := callArguments_mirrors ih
      atom := atom_mirrors ih
      parenthesised := parenthesised_mirrors ih
      annotated := annotated_mirrors ih
      recordField := recordField_mirrors ih }

end Parser
end ScriptAnalyzer

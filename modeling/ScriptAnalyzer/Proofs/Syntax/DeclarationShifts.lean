import ScriptAnalyzer.Proofs.Syntax.ExpressionShifts

/-!
Declarations read from moved tokens. The name of a directive does not start where its token does, so a declaration
is found again only up to the places in it.
-/

namespace ScriptAnalyzer
namespace Parser

open ParserState Shift

variable {σ : Shift} {n : Nat} {s : ParserState}

theorem header_mirrors (s : ParserState) :
    Mirrors σ (Gives (Option.map (·.mapSpans σ.span))) header header s := by
  have hname : ((σ.state s).rest.tail.dropWhile fun t => t.token.isIdent || t.token == .punct .dot).head?.map (·.token) =
      (s.rest.tail.dropWhile fun t => t.token.isIdent || t.token == .punct .dot).head?.map (·.token) := by
    rw [rest_state, ← List.map_tail, List.dropWhile_map, List.head?_map, Option.map_map]
    rfl
  refine mirrors_get ?_
  rw [peek_state]
  split
  · exact mirrors_pure rfl
  · dsimp only
    rw [hname]
    split
    · exact mirrors_pure rfl
    · refine (skip_mirrors s).andThen fun _ s₁ => (longIdent?_mirrors s₁).andThen fun name s₂ => ?_
      cases name with
      | some name => exact mirrors_pure rfl
      | none => exact (unexpected_mirrors s₂).andThen fun _ s₃ => mirrors_pure rfl

theorem fieldDecls_mirrors {unclosed unclosed' : SyntaxError} (hunclosed : unclosed' = unclosed.mapSpan σ.span) (n : Nat)
    (s : ParserState) :
    Mirrors σ (Gives (List.map fun f => (f.1.mapSpans σ.span, f.2.mapSpans σ.span))) (fieldDecls unclosed n)
      (fieldDecls unclosed' n) s := by
  induction n generalizing s with
  | zero => exact mirrors_pure rfl
  | succ n ih =>
    refine (eat_mirrors _ s).andThen fun found s₁ => ?_
    cases found with
    | some span => exact mirrors_pure rfl
    | none =>
      refine mirrors_get ?_
      rw [offside_state, beforeColumn_state]
      split
      · exact (report_mirrors hunclosed s₁).andThen fun _ s₂ => mirrors_pure rfl
      · refine (eat_mirrors _ s₁).andThen fun found s₂ => ?_
        cases found with
        | some span => exact ih s₂
        | none =>
          refine (ident?_mirrors s₂).andThen fun name s₃ => ?_
          cases name with
          | none => exact (reject_mirrors s₃).andThen fun _ => ih
          | some name =>
            refine (expect_mirrors _ _ s₃).andThen fun _ s₄ => ((typesMirror σ n).type s₄).andThen fun type s₅ => ?_
            exact (ih s₅).andThen fun fields s₆ => mirrors_pure rfl

/-- The declarations that two shapes make differ in places only. -/
def Alike (shape shape' : Span → Decl) : Prop := ∀ span span', (shape' span').unplaced = (shape span).unplaced

theorem alike_error : Alike Decl.error Decl.error := fun _ _ => rfl

theorem alike_expr (e : Expr) : Alike (Decl.expr · e) (Decl.expr · (e.mapSpans σ.span)) :=
  fun _ _ => congrArg (Decl.expr _) (e.mapSpans_mapSpans _ _)

theorem alike_binding (b : Binding) : Alike (Decl.binding · b) (Decl.binding · (b.mapSpans σ.span)) :=
  fun _ _ => congrArg (Decl.binding _) (b.mapSpans_mapSpans _ _)

theorem alike_open (path : LongIdent) : Alike (Decl.open · path) (Decl.open · (path.mapSpans σ.span)) :=
  fun _ _ => congrArg (Decl.open _) (path.mapSpans_mapSpans _ _)

theorem alike_abbreviation (name : Ident) (t : TypeExpr) :
    Alike (Decl.type · name (.abbreviation t))
      (Decl.type · (name.mapSpans σ.span) (.abbreviation (t.mapSpans σ.span))) :=
  fun _ _ => congrArg (Decl.type _ _ <| .abbreviation ·) (t.mapSpans_mapSpans _ _)

theorem alike_record (name : Ident) (fields : List (Ident × TypeExpr)) :
    Alike (Decl.type · name (.record fields)) (Decl.type · (name.mapSpans σ.span)
      (.record (fields.map fun f => (f.1.mapSpans σ.span, f.2.mapSpans σ.span)))) := by
  intro span span'
  refine congrArg (Decl.type _ _ <| .record ·) ?_
  rw [List.map_map]
  exact congrArg (fields.map ·) (funext fun f => congrArg (Prod.mk _) (f.2.mapSpans_mapSpans _ _))

theorem alike_module (name : Ident) {ds ds' : List Decl} (h : ds'.map (·.unplaced) = ds.map (·.unplaced)) :
    Alike (Decl.module · name ds) (Decl.module · (name.mapSpans σ.span) ds') := by
  intro span span'
  have hmap : ∀ ds, Decl.mapSpansOfAll (fun _ => Span.empty 0) ds = ds.map (·.unplaced) :=
    Decl.mapSpansOfAll_eq _
  rw [← hmap, ← hmap] at h
  exact congrArg (Decl.module _ _) h

theorem typeDecl_mirrors (n : Nat) (s : ParserState) : Mirrors σ Alike (typeDecl n) (typeDecl n) s := by
  refine (skip_mirrors s).andThen fun _ s₁ => (ident?_mirrors s₁).andThen fun name s₂ => ?_
  cases name with
  | none => exact (missing_mirrors _ s₂).andThen fun _ s₃ => mirrors_pure alike_error
  | some name =>
    refine (expect_mirrors _ _ s₂).andThen fun found s₃ => ?_
    cases found with
    | none => exact mirrors_pure alike_error
    | some _ =>
      refine mirrors_get ?_
      rw [peek_state]
      split
      · refine (bump_mirrors s₃).bind fun opener opener' s₄ hopener => mirrors_get ?_
        dsimp only
        rw [max_column_state, hopener]
        refine (nested_mirrors (withOffside_mirrors _ (fieldDecls_mirrors rfl n)) s₄).andThen fun fields s₅ => ?_
        exact mirrors_pure (alike_record name fields)
      · exact ((typesMirror σ n).type s₃).andThen fun t s₄ => mirrors_pure (alike_abbreviation name t)

theorem directiveArg?_state (s : ParserState) :
    directiveArg? (σ.state s).current = (directiveArg? s.current).map (·.mapSpans σ.span) := by
  rw [directiveArg?, directiveArg?, token_state, span_state]
  cases s.current.token <;> rfl

theorem directiveArgs_mirrors (invalid : SyntaxError.Cause) (n : Nat) (s : ParserState) :
    Mirrors σ (Gives (List.map (·.mapSpans σ.span))) (directiveArgs invalid n) (directiveArgs invalid n) s := by
  induction n generalizing s with
  | zero => exact mirrors_pure rfl
  | succ n ih =>
    refine mirrors_get ?_
    dsimp only
    rw [lineStart_state, directiveArg?_state, span_state, Option.isNone_map]
    split
    · exact mirrors_pure rfl
    · refine (when_mirrors (error_mirrors rfl) s).andThen fun _ s₁ => (skip_mirrors s₁).andThen fun _ s₂ => ?_
      refine (ih s₂).andThen fun args s₃ => mirrors_pure ?_
      cases directiveArg? s.current <;> rfl

theorem directive_mirrors (raw : String) (n : Nat) (s : ParserState) :
    Mirrors σ (fun d d' => Alike (Decl.directive · d) (Decl.directive · d')) (directive raw n) (directive raw n) s := by
  refine (bump_mirrors s).bind fun t t' s₁ ht => (directiveArgs_mirrors _ n s₁).andThen fun args s₂ => mirrors_get ?_
  rw [kind_state, ht]
  refine (when_mirrors (report_mirrors rfl) s₂).andThen fun _ s₃ => mirrors_get (mirrors_pure fun span span' => ?_)
  have hargs : (args.map (·.mapSpans σ.span)).map (·.mapSpans fun _ => .empty 0) = args.map (·.mapSpans fun _ => .empty 0) :=
    List.map_map ..
  exact congrArg (Decl.directive _ ⟨_, ·, _⟩) hargs

structure DeclsMirror (σ : Shift) (n : Nat) : Prop where
  decls : ∀ column s, Mirrors σ (fun ds ds' => ds'.map (·.unplaced) = ds.map (·.unplaced)) (decls n column)
    (decls n (column + σ.column)) s
  decl : ∀ column s, Mirrors σ (fun d d' => d'.unplaced = d.unplaced) (decl n column) (decl n (column + σ.column)) s
  moduleDecl : ∀ column s, Mirrors σ Alike (moduleDecl n column) (moduleDecl n (column + σ.column)) s

theorem decls_mirrors (ih : DeclsMirror σ n) (column : Nat) (s : ParserState) :
    Mirrors σ (fun ds ds' => ds'.map (·.unplaced) = ds.map (·.unplaced)) (decls (n + 1) column)
      (decls (n + 1) (column + σ.column)) s := by
  refine mirrors_get ?_
  dsimp only
  rw [beforeColumn_state, lineStart_state, token_state, span_state, length_state]
  split
  case isTrue => exact mirrors_pure rfl
  case isFalse hstay =>
    have hend : s.atEnd = false := by
      cases h : s.atEnd with
      | true => exact absurd (by rw [beforeColumn, h]; rfl) hstay
      | false => rfl
    simp only [column_state s hend, Nat.add_lt_add_iff_right]
    split
    · refine (error_mirrors rfl s).andThen fun _ s₁ => (skip_mirrors s₁).andThen fun _ s₂ => ?_
      exact (synchronize_mirrors column s₂).andThen fun _ => ih.decls column
    · refine (setAnchor_mirrors s).andThen fun _ s₁ => (ih.decl column s₁).bind fun d d' s₂ hd => ?_
      refine (ifStuck_mirrors _ reject_mirrors s₂).andThen fun _ s₃ => mirrors_get ?_
      rw [lineStart_state]
      refine (when_mirrors unexpected_mirrors s₃).andThen fun _ s₄ => ?_
      refine (synchronize_mirrors column s₄).andThen fun _ s₅ => (ih.decls column s₅).bind fun ds ds' s₆ hds => ?_
      exact mirrors_pure (congrArg₂ List.cons hd hds)

theorem decl_mirrors (ih : DeclsMirror σ n) (column : Nat) (s : ParserState) :
    Mirrors σ (fun d d' => d'.unplaced = d.unplaced) (decl (n + 1) column) (decl (n + 1) (column + σ.column)) s := by
  refine mirrors_get ?_
  dsimp only
  rw [peek_state, length_state]
  refine Mirrors.bind (R := Alike) ?_ fun shape shape' s₁ h => mirrors_get (mirrors_pure (h _ _))
  split
  case h_1 =>
    refine ((exprsMirror σ n).binding s).andThen fun b s₁ => mirrors_get ?_
    rw [peek_state]
    split
    · exact ((exprsMirror σ n).letScope b s₁).andThen fun e s₂ => mirrors_pure (alike_expr e)
    · exact mirrors_pure (alike_binding b)
  case h_2 =>
    refine (skip_mirrors s).andThen fun _ s₁ => (longIdent?_mirrors s₁).andThen fun path s₂ => ?_
    cases path with
    | some path => exact mirrors_pure (alike_open path)
    | none => exact (missing_mirrors _ s₂).andThen fun _ s₃ => mirrors_pure alike_error
  case h_3 => exact ih.moduleDecl column s
  case h_4 => exact typeDecl_mirrors n s
  case h_5 raw _ => exact (directive_mirrors raw _ s).bind fun d d' s₁ hd => mirrors_pure hd
  case h_6 =>
    refine (skip_mirrors s).andThen fun _ s₁ => ?_
    exact ((exprsMirror σ n).body s₁).andThen fun e s₂ => mirrors_pure (alike_expr e)
  case h_7 =>
    refine ((exprsMirror σ n).expr s).andThen fun e s₁ => ?_
    exact (skipStray_mirrors s₁).andThen fun _ s₂ => mirrors_pure (alike_expr e)

theorem moduleDecl_mirrors (ih : DeclsMirror σ n) (column : Nat) (s : ParserState) :
    Mirrors σ Alike (moduleDecl (n + 1) column) (moduleDecl (n + 1) (column + σ.column)) s := by
  refine (skip_mirrors s).andThen fun _ s₁ => (ident?_mirrors s₁).andThen fun name s₂ => ?_
  cases name with
  | none => exact (missing_mirrors _ s₂).andThen fun _ s₃ => mirrors_pure alike_error
  | some name =>
    refine (expect_mirrors _ _ s₂).andThen fun found s₃ => ?_
    cases found with
    | none => exact mirrors_pure alike_error
    | some _ =>
      refine mirrors_get ?_
      rw [atEnd_state, lineStart_state]
      have hnone : Mirrors σ Alike
          (do error (.expected "indented declarations") (.empty s₃.prevEnd); return (Decl.module · name []))
          (do error (.expected "indented declarations") (.empty (σ.state s₃).prevEnd)
              return (Decl.module · (name.mapSpans σ.span) [])) s₃ :=
        (error_mirrors rfl s₃).andThen fun _ s₄ => mirrors_pure (alike_module name rfl)
      cases h : s₃.atEnd with
      | true => exact hnone
      | false =>
        simp only [column_state s₃ h, Nat.add_le_add_iff_right]
        split
        · exact hnone
        · refine (withOffside_mirrors _ (ih.decls _) s₃).bind fun ds ds' s₄ hds => ?_
          exact mirrors_pure (alike_module name hds)

theorem declsMirror (σ : Shift) (n : Nat) : DeclsMirror σ n := by
  induction n with
  | zero =>
    exact ⟨fun _ s => mirrors_pure rfl, fun _ s => mirrors_pure rfl, fun _ s => mirrors_pure alike_error⟩
  | succ n ih => exact ⟨decls_mirrors ih, decl_mirrors ih, moduleDecl_mirrors ih⟩

end Parser
end ScriptAnalyzer

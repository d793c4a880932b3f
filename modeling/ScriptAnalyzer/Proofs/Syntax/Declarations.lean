import ScriptAnalyzer.Proofs.Syntax.Expressions

namespace ScriptAnalyzer
namespace Parser

open ParserState

variable {T : LaidToken → Prop} {c column n : Nat} {s : ParserState}

theorem fieldDecls_passes (hT : Resuming T c) (unclosed : SyntaxError) (n : Nat) (s : ParserState) :
    (fieldDecls unclosed n).Yields s fun _ => Passes T s := by
  induction n generalizing s with
  | zero => exact Passes.refl s
  | succ n ih =>
    simp only [fieldDecls, yields_bind]
    refine (eat_passes hT rfl s).mono fun found s₁ h₁ => ?_
    cases found with
    | some span => exact h₁
    | none =>
      simp only [yields_bind, yields_get]
      split
      · exact h₁.trans (passes_report s₁ unclosed)
      · simp only [yields_bind]
        refine (eat_passes hT rfl s₁).mono fun found s₂ h₂ => ?_
        have h := h₁.trans h₂
        cases found with
        | some span => exact (ih s₂).mono fun _ s₃ h₃ => h.trans h₃
        | none =>
          simp only [yields_bind]
          refine (ident?_passes hT s₂).mono fun name s₃ h₃ => ?_
          have h := h.trans h₃
          cases name with
          | none =>
            simp only [yields_bind]
            refine (reject_passes (T := T) s₃).mono fun _ s₄ h₄ => ?_
            exact (ih s₄).mono fun _ s₅ h₅ => (h.trans h₄).trans h₅
          | some name =>
            simp only [yields_bind, yields_pure]
            refine (expect_passes hT rfl _ s₃).mono fun _ s₄ h₄ => ?_
            refine ((typesPass hT n).type s₄).mono fun _ s₅ h₅ => ?_
            exact (ih s₅).mono fun _ s₆ h₆ => ((h.trans h₄).trans h₅).trans h₆

theorem typeDecl_takes (hT : Resuming T c) (n : Nat) (s : ParserState) :
    (typeDecl n).Yields s fun _ => Takes T (Opening T s) s := by
  simp only [typeDecl, yields_bind, yields_skip]
  have h := takes_opening (T := T) s
  refine (ident?_passes hT _).mono fun name s₁ h₁ => ?_
  have h := h.passes h₁
  cases name with
  | none => exact h.passes (passes_report s₁ _)
  | some name =>
    simp only [yields_bind]
    refine (expect_passes hT rfl _ s₁).mono fun found s₂ h₂ => ?_
    have h := h.passes h₂
    cases found with
    | none => exact h
    | some span =>
      simp only [yields_bind, yields_get]
      split
      case isTrue hopen =>
        simp only [yields_bind, yields_bump, yields_get, yields_pure]
        have h₃ : Passes T s₂ s₂.advance := passes_advance (hT.not_current hopen rfl)
        refine (nested_takes (A := fun _ _ => False) (withOffside_takes ?_)).mono
          fun fields s₄ h₄ => (h.passes h₃).passes h₄
        exact fieldDecls_passes hT _ n _
      case isFalse =>
        simp only [yields_bind, yields_pure]
        exact ((typesPass hT n).type s₂).mono fun _ s₃ h₃ => h.passes h₃

theorem directiveArgs_passes (hT : Resuming T c) (invalid : SyntaxError.Cause) (n : Nat)
    (s : ParserState) : (directiveArgs invalid n).Yields s fun _ => Passes T s := by
  induction n generalizing s with
  | zero => exact Passes.refl s
  | succ n ih =>
    simp only [directiveArgs, yields_bind, yields_get]
    split
    case isTrue => exact Passes.refl s
    case isFalse hline =>
      have hnot : ¬T s.current := hT.not_continuing (by simpa using hline)
      simp only [when, yields_bind, yields_skip, yields_pure]
      split
      case isTrue =>
        simp only [yields_error]
        have h₁ : Passes T s _ := passes_report s { cause := invalid, span := s.current.span }
        have h₂ := h₁.trans (passes_advance (by rwa [current_report]))
        exact (ih _).mono fun _ s₃ h₃ => h₂.trans h₃
      case isFalse =>
        simp only [yields_pure]
        exact (ih _).mono fun _ s₂ h₂ => (passes_advance hnot).trans h₂

theorem directive_passes (hT : Resuming T c) (raw : String) (n : Nat)
    (hraw : s.peek = .directive raw) : (directive raw n).Yields s fun _ => Passes T s := by
  simp only [directive, yields_bind, yields_bump, yields_get, yields_pure]
  have h : Passes T s s.advance := passes_advance (hT.not_current hraw rfl)
  refine (directiveArgs_passes hT _ n _).mono fun args s₁ h₁ => ?_
  refine (when_passes (T := T) (p := report _) (passes_report s₁ _)).mono fun _ s₂ h₂ => ?_
  exact (h.trans h₁).trans h₂

structure DeclsTake (T : LaidToken → Prop) (c n : Nat) : Prop where
  decls : ∀ column s, c < column → c ≤ s.offside →
    (decls n column).Yields s fun ds => Takes T (fun x => ∃ d ∈ ds, d.HasLetAt x) s
  decl : ∀ column s, c ≤ column → c ≤ s.offside →
    (decl n column).Yields s fun d => Takes T (fun x => Opening T s x ∨ d.HasLetAt x) s
  moduleDecl : ∀ column s, c ≤ column →
    (moduleDecl n column).Yields s fun shape s' =>
      ∀ span, Takes T (fun x => Opening T s x ∨ (shape span).HasLetAt x) s s'

theorem decls_takes (hT : Resuming T c) (ih : DeclsTake T c n) (hcolumn : c < column)
    (hc : c ≤ s.offside) :
    (decls (n + 1) column).Yields s fun ds => Takes T (fun x => ∃ d ∈ ds, d.HasLetAt x) s := by
  simp only [decls, yields_bind, yields_get]
  split
  case isTrue => exact pure_takes _ s
  case isFalse hstay =>
    split
    case isTrue hstray =>
      have hnot : ¬T s.current := by
        intro ht
        have := hT.lineStart ht
        have := hT.column ht
        simp_all
        omega
      simp only [yields_bind, yields_error, yields_skip]
      have h₁ : Passes T s _ := passes_report s
        { cause := if s.current.lineStart then .offside else .unexpectedToken s.current.token.text
          span := s.current.span }
      have h₂ := h₁.trans (passes_advance (by rwa [current_report]))
      refine (synchronize_passes hT (Nat.le_of_lt hcolumn) _).mono fun _ s₃ h₃ => ?_
      have h := h₂.trans h₃
      exact (ih.decls column s₃ hcolumn (h.le_offside hc)).mono fun ds s₄ h₄ => h.trans_takes h₄
    case isFalse hstart =>
      have hnot : ¬T s.current := by
        refine hT.not_right ?_
        simp [beforeColumn] at hstay
        simp at hstart
        have := hstay.2 hstart.1
        omega
      simp only [yields_bind, yields_setAnchor, yields_get, yields_pure]
      have h₁ : Passes T s _ := passes_anchor s (some s.rest.length)
      refine (ih.decl column _ (Nat.le_of_lt hcolumn) (h₁.le_offside hc)).mono fun d s₂ h₂ => ?_
      have h₂ : Takes T d.HasLetAt s s₂ := by
        refine (h₁.trans_takes h₂).mono fun x hx => hx.elim (fun hopening => ?_) id
        exact absurd hopening.1 hnot
      refine (ifStuck_passes (T := T) (reject_passes s₂)).mono fun _ s₃ h₃ => ?_
      refine (when_passes (T := T) (unexpected_passes s₃)).mono fun _ s₄ h₄ => ?_
      refine (synchronize_passes hT (Nat.le_of_lt hcolumn) s₄).mono fun _ s₅ h₅ => ?_
      have h := ((h₂.passes h₃).passes h₄).passes h₅
      refine (ih.decls column s₅ hcolumn (h.le_offside hc)).mono fun ds s₆ h₆ => ?_
      refine (h.trans h₆).mono fun x hx => ?_
      simpa using hx

theorem moduleDecl_takes (hT : Resuming T c) (ih : DeclsTake T c n) (hcolumn : c ≤ column) :
    (moduleDecl (n + 1) column).Yields s fun shape s' =>
      ∀ span, Takes T (fun x => Opening T s x ∨ (shape span).HasLetAt x) s s' := by
  simp only [moduleDecl, yields_bind, yields_skip]
  have h := takes_opening (T := T) s
  refine (ident?_passes hT _).mono fun name s₁ h₁ => ?_
  have h := h.passes h₁
  cases name with
  | none =>
    intro span
    exact (h.passes (passes_report s₁ _)).mono fun x hx => .inl hx
  | some name =>
    simp only [yields_bind]
    refine (expect_passes hT rfl _ s₁).mono fun found s₂ h₂ => ?_
    have h := h.passes h₂
    cases found with
    | none =>
      intro span
      exact h.mono fun x hx => .inl hx
    | some span =>
      simp only [yields_bind, yields_get]
      split
      case isTrue =>
        intro span
        exact (h.passes (passes_report s₂ _)).mono fun x hx => .inl hx
      case isFalse hmembers =>
        simp only [yields_bind, yields_pure]
        have hright : c < s₂.current.column := by
          simp at hmembers
          omega
        refine (withOffside_takes (ih.decls _ _ hright (Nat.le_of_lt hright))).mono
          fun members s₃ h₃ span => ?_
        exact (h.trans h₃).mono fun x hx => hx.imp_right (Decl.hasLetAt_module _ _ _ x).mpr

theorem decl_takes (hT : Resuming T c) (ih : DeclsTake T c n) (hcolumn : c ≤ column)
    (hc : c ≤ s.offside) :
    (decl (n + 1) column).Yields s fun d => Takes T (fun x => Opening T s x ∨ d.HasLetAt x) s := by
  have exprs := exprsTake hT n
  simp only [decl, yields_bind, yields_get, yields_pure]
  split
  case h_1 hlet =>
    simp only [yields_bind, yields_get]
    refine (exprs.binding s hc hlet).mono fun b s₁ h₁ => ?_
    split
    case isTrue hin =>
      simp only [yields_bind, yields_pure]
      refine (exprs.letScope b s₁ (h₁.le_offside hc) hin).mono fun e s₂ ⟨h₂, hb⟩ => ?_
      refine (h₁.trans h₂).mono fun x hx => .inr ?_
      rw [Decl.hasLetAt_expr]
      rcases hx with hx | hx
      · exact hb x (hx.imp_left And.right)
      · exact hx
    case isFalse =>
      simp only [yields_pure]
      exact h₁.mono fun x hx => hx.imp And.left (Decl.hasLetAt_binding _ _ x).mpr
  case h_2 =>
    simp only [yields_bind, yields_skip]
    refine (longIdent?_passes hT _).mono fun path s₁ h₁ => ?_
    have h := (takes_opening (T := T) s).passes h₁
    cases path with
    | some path =>
      simp only [yields_pure]
      exact h.mono fun x hx => .inl hx
    | none =>
      simp only [yields_bind, yields_pure]
      refine (missing_passes (T := T) _ s₁).mono fun _ s₂ h₂ => ?_
      exact (h.passes h₂).mono fun x hx => .inl hx
  case h_3 => exact (ih.moduleDecl column s hcolumn).mono fun shape s₁ h₁ => h₁ _
  case h_4 => exact (typeDecl_takes hT n s).mono fun shape s₁ h₁ => h₁.mono fun x hx => .inl hx
  case h_5 raw hraw =>
    simp only [yields_bind, yields_pure]
    exact (directive_passes hT raw _ hraw).mono fun d s₁ h₁ => h₁.takes
  case h_6 hdo =>
    simp only [yields_bind, yields_skip, yields_pure]
    have h : Passes T s s.advance := passes_advance (hT.not_current hdo rfl)
    refine (exprs.body _ (h.le_offside hc)).mono fun e s₁ h₁ => ?_
    exact (h.trans_takes h₁).mono fun x hx => .inr ((Decl.hasLetAt_expr _ _ x).mpr hx)
  case h_7 =>
    simp only [yields_bind, yields_pure]
    refine (exprs.expr s hc).mono fun e s₁ h₁ => ?_
    refine (skipStray_passes hT s₁).mono fun _ s₂ h₂ => ?_
    exact (h₁.passes h₂).mono fun x hx => .inr ((Decl.hasLetAt_expr _ _ x).mpr hx)

theorem declsTake (hT : Resuming T c) (n : Nat) : DeclsTake T c n := by
  induction n with
  | zero =>
    exact {
      decls := fun _ s _ _ => pure_takes [] s
      decl := fun _ s _ _ => pure_takes (Decl.error default) s
      moduleDecl := fun _ s _ _ => (Passes.refl s).takes }
  | succ n ih =>
    exact {
      decls := fun _ _ hcolumn hc => decls_takes hT ih hcolumn hc
      decl := fun _ _ hcolumn hc => decl_takes hT ih hcolumn hc
      moduleDecl := fun _ _ hcolumn => moduleDecl_takes hT ih hcolumn }

end Parser
end ScriptAnalyzer

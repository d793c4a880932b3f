import ScriptAnalyzer.Proofs.Syntax.Reading

namespace ScriptAnalyzer
namespace Parser

open ParserState

variable {T : LaidToken → Prop} {c : Nat}

theorem missingType_passes (s : ParserState) : missingType.Yields s fun _ => Passes T s :=
  missing_passes "a type" s

theorem typeSuffixes_passes (hT : Resuming T c) (n : Nat) (t : TypeExpr) (s : ParserState) :
    (typeSuffixes n t).Yields s fun _ => Passes T s := by
  induction n generalizing t s with
  | zero => exact Passes.refl s
  | succ n ih =>
    simp only [typeSuffixes, yields_bind, yields_get]
    split
    · exact Passes.refl s
    · split
      case h_1 name hname =>
        simp only [yields_bind]
        refine (longIdent?_passes hT s).mono fun found s₁ h₁ => ?_
        cases found with
        | none => exact h₁
        | some ctor => exact (ih _ s₁).mono fun _ s₂ h₂ => h₁.trans h₂
      case h_2 hopen =>
        split
        case isTrue hclose =>
          simp only [yields_bind, yields_skip, yields_bump]
          have h₁ : Passes T s s.advance := passes_advance (hT.not_current hopen rfl)
          have h₂ : Passes T s.advance s.advance.advance :=
            passes_advance (hT.not_current ((peek_advance s).trans hclose) rfl)
          exact (ih _ _).mono fun _ s₃ h₃ => (h₁.trans h₂).trans h₃
        case isFalse => exact Passes.refl s
      case h_3 => exact Passes.refl s

structure TypesPass (T : LaidToken → Prop) (n : Nat) : Prop where
  type : ∀ s, (type n).Yields s fun _ => Passes T s
  tupleType : ∀ s, (tupleType n).Yields s fun _ => Passes T s
  tupleTypeItems : ∀ s, (tupleTypeItems n).Yields s fun _ => Passes T s
  suffixedType : ∀ s, (suffixedType n).Yields s fun _ => Passes T s
  atomicType : ∀ s, (atomicType n).Yields s fun _ => Passes T s

theorem peek_of_test {s : ParserState} {token : Token} {b : Bool}
    (h : (decide (s.peek = token) && b) = true) : s.peek = token := by
  simp only [Bool.and_eq_true, decide_eq_true_eq] at h
  exact h.1

theorem atomicType_passes (hT : Resuming T c) {n : Nat} (ih : TypesPass T n) (s : ParserState) :
    (atomicType (n + 1)).Yields s fun _ => Passes T s := by
  simp only [atomicType, yields_bind, yields_get]
  split
  · exact missingType_passes s
  · split
    case h_1 name hname =>
      simp only [yields_bind]
      refine (longIdent?_passes hT s).mono fun found s₁ h₁ => ?_
      cases found with
      | none => exact (missingType_passes s₁).mono fun _ s₂ h₂ => h₁.trans h₂
      | some name => exact h₁
    case h_2 text hvar => exact passes_advance (hT.not_current hvar rfl)
    case h_3 hopen =>
      simp only [yields_bind, yields_bump, yields_pure]
      have h₁ : Passes T s s.advance := passes_advance (hT.not_current hopen rfl)
      refine (nested_passes ih.type _).mono fun inner s₂ h₂ => ?_
      refine (closing_passes hT _ _ s₂).mono fun stop s₃ h₃ => ?_
      exact h₁.trans (h₂.trans h₃)
    case h_4 => exact missingType_passes s

theorem typesPass (hT : Resuming T c) (n : Nat) : TypesPass T n := by
  induction n with
  | zero =>
    exact ⟨missingType_passes, missingType_passes, Passes.refl, missingType_passes, missingType_passes⟩
  | succ n ih =>
    refine ⟨fun s => ?type, fun s => ?tupleType, fun s => ?items, fun s => ?suffixed, atomicType_passes hT ih⟩
    case type =>
      simp only [Parser.type, yields_bind, yields_get]
      refine (ih.tupleType s).mono fun lhs s₁ h₁ => ?_
      split
      case isTrue h =>
        simp only [yields_bind, yields_skip, yields_pure]
        have h₂ : Passes T s₁ s₁.advance := passes_advance (hT.not_current (peek_of_test h) rfl)
        exact (ih.type _).mono fun rhs s₃ h₃ => h₁.trans (h₂.trans h₃)
      case isFalse => exact h₁
    case tupleType =>
      simp only [Parser.tupleType, yields_bind]
      refine (ih.suffixedType s).mono fun first s₁ h₁ => ?_
      refine (ih.tupleTypeItems s₁).mono fun more s₂ h₂ => ?_
      split <;> exact h₁.trans h₂
    case items =>
      simp only [Parser.tupleTypeItems, yields_bind, yields_get]
      split
      case isTrue h =>
        simp only [yields_bind, yields_skip, yields_pure]
        have h₁ : Passes T s s.advance := passes_advance (hT.not_current (peek_of_test h) rfl)
        refine (ih.suffixedType _).mono fun item s₂ h₂ => ?_
        exact (ih.tupleTypeItems s₂).mono fun more s₃ h₃ => h₁.trans (h₂.trans h₃)
      case isFalse => exact Passes.refl s
    case suffixed =>
      simp only [Parser.suffixedType, yields_bind]
      refine (ih.atomicType s).mono fun atom s₁ h₁ => ?_
      exact (typeSuffixes_passes hT n atom s₁).mono fun _ s₂ h₂ => h₁.trans h₂

theorem invalidPattern_passes (s : ParserState) : invalidPattern.Yields s fun _ => Passes T s :=
  passes_report s _

structure PatternsPass (T : LaidToken → Prop) (n : Nat) : Prop where
  atomicPattern : ∀ s, (atomicPattern n).Yields s fun _ => Passes T s
  tuplePattern : ∀ s, (tuplePattern n).Yields s fun _ => Passes T s
  tuplePatternItems : ∀ item s, (tuplePatternItems n item).Yields s fun _ => Passes T s
  annotatedPattern : ∀ s, (annotatedPattern n).Yields s fun _ => Passes T s

theorem atomicPattern_passes (hT : Resuming T c) {n : Nat} (ih : PatternsPass T n) (s : ParserState) :
    (atomicPattern (n + 1)).Yields s fun _ => Passes T s := by
  simp only [atomicPattern, yields_bind, yields_get]
  split
  case h_1 text hname => exact passes_advance (hT.not_current hname rfl)
  case h_2 hopen =>
    simp only [yields_bind, yields_skip]
    have h₁ : Passes T s s.advance := passes_advance (hT.not_current hopen rfl)
    refine (eat_passes hT rfl _).mono fun found s₂ h₂ => ?_
    cases found with
    | some close => exact h₁.trans h₂
    | none =>
      simp only [yields_bind, yields_pure]
      refine (nested_passes ih.tuplePattern _).mono fun inner s₃ h₃ => ?_
      refine (closing_passes hT _ _ s₃).mono fun stop s₄ h₄ => ?_
      exact (h₁.trans h₂).trans (h₃.trans h₄)
  case h_3 => exact invalidPattern_passes s

theorem patternsPass (hT : Resuming T c) (n : Nat) : PatternsPass T n := by
  induction n with
  | zero =>
    exact ⟨invalidPattern_passes, invalidPattern_passes, fun _ => Passes.refl, invalidPattern_passes⟩
  | succ n ih =>
    refine ⟨atomicPattern_passes hT ih, fun s => ?tuple, fun item s => ?items, fun s => ?annotated⟩
    case tuple =>
      simp only [Parser.tuplePattern, yields_bind]
      refine (ih.annotatedPattern s).mono fun first s₁ h₁ => ?_
      refine (ih.tuplePatternItems first s₁).mono fun more s₂ h₂ => ?_
      split <;> exact h₁.trans h₂
    case items =>
      simp only [Parser.tuplePatternItems]
      split
      · exact Passes.refl s
      · simp only [yields_bind]
        refine (eat_passes hT rfl s).mono fun found s₁ h₁ => ?_
        cases found with
        | none => exact h₁
        | some comma =>
          simp only [yields_bind, yields_pure]
          refine (ih.annotatedPattern s₁).mono fun item s₂ h₂ => ?_
          exact (ih.tuplePatternItems item s₂).mono fun more s₃ h₃ => h₁.trans (h₂.trans h₃)
    case annotated =>
      simp only [Parser.annotatedPattern, yields_bind]
      refine (ih.atomicPattern s).mono fun pattern s₁ h₁ => ?_
      refine (eat_passes hT rfl s₁).mono fun found s₂ h₂ => ?_
      cases found with
      | none => exact h₁.trans h₂
      | some colon =>
        simp only [yields_bind, yields_pure]
        exact ((typesPass hT n).type s₂).mono fun annotation s₃ h₃ => (h₁.trans h₂).trans h₃

theorem params_passes (hT : Resuming T c) (n : Nat) (s : ParserState) :
    (params n).Yields s fun _ => Passes T s := by
  induction n generalizing s with
  | zero => exact Passes.refl s
  | succ n ih =>
    have hparam : (do
        let p ← atomicPattern n
        let ps ← params n
        return p :: ps : Parser (List Pattern)).Yields s fun _ => Passes T s := by
      simp only [yields_bind, yields_pure]
      refine ((patternsPass hT n).atomicPattern s).mono fun p s₁ h₁ => ?_
      exact (ih s₁).mono fun ps s₂ h₂ => h₁.trans h₂
    simp only [params, yields_bind, yields_get]
    split
    · split
      · exact Passes.refl s
      · exact hparam
    · split
      · exact Passes.refl s
      · exact hparam
    · exact Passes.refl s

end Parser
end ScriptAnalyzer

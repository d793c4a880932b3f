import ScriptAnalyzer.Proofs.Syntax.Places

/-!
Types and patterns: the names that they are read with. Behind a type, and behind parameters, no further
name stands unless it starts a line.
-/

namespace ScriptAnalyzer
namespace Parser

open ParserState

variable {s : ParserState} {p : Place} {n : Nat}

theorem isIdent_of_not_ident {token : Token} (h : ∀ text, token = .ident text → False) :
    token.isIdent = false := by
  cases token with
  | ident text => exact (h text rfl).elim
  | _ => rfl

theorem test_left {a b : Bool} (h : (a && b) = true) : a = true := (Bool.and_eq_true_iff.mp h).1

/-! Types -/

theorem missingType_readsOff (h : Parted s.prevEnd s.rest) :
    missingType.Yields s fun t s' => ReadsOff t.landmarks s.place s'.place ∧ (s.place.Clear → s'.place.Clear) := by
  simp only [missingType, yields_bind, yields_get, yields_pure]
  exact (missing_place _ s).mono fun _ s' h' => h'.symm ▸ ⟨ReadsOff.refl h, id⟩

theorem typeSuffixes_readsOff (t : TypeExpr) (h : ReadsOff t.landmarks p s.place) (hn : s.rest.length < n) :
    (typeSuffixes n t).Yields s fun u s' => ReadsOff u.landmarks p s'.place ∧ s'.place.Clear := by
  induction n generalizing t s with
  | zero => exact absurd hn (Nat.not_lt_zero _)
  | succ n ih =>
    simp only [typeSuffixes, yields_bind, yields_get]
    split
    case isTrue hline => exact ⟨h, clear_of_lineStart h.behind hline⟩
    case isFalse =>
      split
      case h_1 text hident =>
        rw [yields_bind]
        refine (longIdent?_readsOff h.behind .label fun _ => rfl).mono fun ctor s₁ h₁ => ?_
        cases ctor with
        | none =>
          have hnot := (h₁.2.2 rfl).2
          rw [hident] at hnot
          cases hnot
        | some ctor =>
          have hlt := h₁.2.1 rfl
          refine ih _ ?_ (by omega)
          simpa [TypeExpr.landmarks, TypeExpr.names] using h.trans h₁.1
      case h_2 hbracket =>
        split
        · simp only [yields_bind, yields_skip, yields_bump]
          have h₁ := readsOff_advance h.behind
          have h₂ := h₁.before (readsOff_advance h₁.behind)
          have hlt := length_advance (atEnd_of_peek hbracket (by simp))
          have hle := rest_le (readsOff_advance h₁.behind)
          exact ih _ (h.andThen h₂) (by omega)
        · rw [yields_pure]
          exact ⟨h, clear_of_not_ident h.behind (by rw [hbracket]; rfl)⟩
      case h_3 hnot _ =>
        exact ⟨h, clear_of_not_ident h.behind (isIdent_of_not_ident hnot)⟩

structure TypesRead (n : Nat) : Prop where
  type : ∀ {s}, Parted s.prevEnd s.rest → 32 * s.rest.length + 4 ≤ n →
    (type n).Yields s fun t s' => ReadsOff t.landmarks s.place s'.place ∧ s'.place.Clear
  tupleType : ∀ {s}, Parted s.prevEnd s.rest → 32 * s.rest.length + 3 ≤ n →
    (tupleType n).Yields s fun t s' => ReadsOff t.landmarks s.place s'.place ∧ s'.place.Clear
  tupleTypeItems : ∀ {s}, Parted s.prevEnd s.rest → s.place.Clear → 32 * s.rest.length + 1 ≤ n →
    (tupleTypeItems n).Yields s fun ts s' =>
      ReadsOff ((TypeExpr.namesOfAll ts).map .label) s.place s'.place ∧ s'.place.Clear
  suffixedType : ∀ {s}, Parted s.prevEnd s.rest → 32 * s.rest.length + 2 ≤ n →
    (suffixedType n).Yields s fun t s' => ReadsOff t.landmarks s.place s'.place ∧ s'.place.Clear
  atomicType : ∀ {s}, Parted s.prevEnd s.rest → 32 * s.rest.length + 1 ≤ n →
    (atomicType n).Yields s fun t s' => ReadsOff t.landmarks s.place s'.place

theorem type_readsOff (ih : TypesRead n) (h : Parted s.prevEnd s.rest)
    (hn : 32 * s.rest.length + 4 ≤ n + 1) :
    (type (n + 1)).Yields s fun t s' => ReadsOff t.landmarks s.place s'.place ∧ s'.place.Clear := by
  simp only [type, yields_bind]
  refine (ih.tupleType h (by omega)).mono fun lhs s₁ h₁ => ?_
  simp only [yields_get]
  split
  case isTrue harrow =>
    simp only [yields_bind, yields_skip, yields_pure]
    have h₂ := readsOff_advance h₁.1.behind
    have hlt := length_advance (atEnd_of_peek (of_decide_eq_true (test_left harrow)) (by simp))
    have hle := rest_le h₁.1
    refine (ih.type h₂.behind (by omega)).mono fun rhs s₃ h₃ => ⟨?_, h₃.2⟩
    simpa [TypeExpr.landmarks, TypeExpr.names] using h₁.1.trans (h₂.before h₃.1)
  case isFalse => exact h₁

theorem tupleType_readsOff (ih : TypesRead n) (h : Parted s.prevEnd s.rest)
    (hn : 32 * s.rest.length + 3 ≤ n + 1) :
    (tupleType (n + 1)).Yields s fun t s' => ReadsOff t.landmarks s.place s'.place ∧ s'.place.Clear := by
  simp only [tupleType, yields_bind]
  refine (ih.suffixedType h (by omega)).mono fun first s₁ h₁ => ?_
  have hle := rest_le h₁.1
  refine (ih.tupleTypeItems h₁.1.behind h₁.2 (by omega)).mono fun more s₂ h₂ => ?_
  split
  case h_1 =>
    rw [yields_pure]
    refine ⟨?_, h₂.2⟩
    simpa [TypeExpr.landmarks, TypeExpr.names, TypeExpr.namesOfAll] using h₁.1.trans h₂.1
  case h_2 hnone =>
    rw [List.getLast?_eq_none_iff.mp hnone] at h₂
    exact ⟨h₁.1.andThen h₂.1, h₂.2⟩

theorem tupleTypeItems_readsOff (ih : TypesRead n) (h : Parted s.prevEnd s.rest) (hclear : s.place.Clear)
    (hn : 32 * s.rest.length + 1 ≤ n + 1) :
    (tupleTypeItems (n + 1)).Yields s fun ts s' =>
      ReadsOff ((TypeExpr.namesOfAll ts).map .label) s.place s'.place ∧ s'.place.Clear := by
  simp only [tupleTypeItems, yields_bind, yields_get]
  split
  case isTrue hstar =>
    simp only [yields_bind, yields_skip, yields_pure]
    have h₁ := readsOff_advance h
    have hlt := length_advance (atEnd_of_peek (of_decide_eq_true (test_left hstar)) (by simp))
    refine (ih.suffixedType h₁.behind (by omega)).mono fun item s₂ h₂ => ?_
    have hle := rest_le h₂.1
    refine (ih.tupleTypeItems h₂.1.behind h₂.2 (by omega)).mono fun more s₃ h₃ => ⟨?_, h₃.2⟩
    simpa [TypeExpr.landmarks, TypeExpr.namesOfAll] using h₁.before (h₂.1.trans h₃.1)
  case isFalse => exact ⟨ReadsOff.refl h, hclear⟩

theorem atomicType_readsOff (ih : TypesRead n) (h : Parted s.prevEnd s.rest)
    (hn : 32 * s.rest.length + 1 ≤ n + 1) :
    (atomicType (n + 1)).Yields s fun t s' => ReadsOff t.landmarks s.place s'.place := by
  simp only [atomicType, yields_bind, yields_get]
  have hmissing : missingType.Yields s fun t s' => ReadsOff t.landmarks s.place s'.place :=
    (missingType_readsOff h).mono fun _ _ h' => h'.1
  split
  case isTrue => exact hmissing
  case isFalse =>
    split
    case h_1 =>
      rw [yields_bind]
      refine (longIdent?_readsOff h .label fun _ => rfl).mono fun name s₁ h₁ => ?_
      cases name with
      | none =>
        obtain ⟨rfl, -⟩ := h₁.2.2 rfl
        exact hmissing
      | some name => exact h₁.1
    case h_2 => exact readsOff_advance h
    case h_3 hparen =>
      simp only [yields_bind, yields_bump, yields_pure]
      have h₁ := readsOff_advance h
      have hlt := length_advance (atEnd_of_peek hparen (by simp))
      have hinner := nested_yields (fun _ _ _ => id) (ih.type (s := { s.advance with nesting := _ })
        h₁.behind (show 32 * s.advance.rest.length + 4 ≤ n by omega))
      refine hinner.mono fun inner s₂ h₂ => ?_
      refine (closing_readsOff _ _ h₂.1.behind).mono fun stop s₃ h₃ => ?_
      rw [TypeExpr.landmarks_withSpan]
      exact h₁.before (h₂.1.andThen h₃.1)
    case h_4 => exact hmissing

theorem typesRead (n : Nat) : TypesRead n := by
  induction n with
  | zero => constructor <;> intros <;> omega
  | succ n ih =>
    exact {
      type := type_readsOff ih
      tupleType := tupleType_readsOff ih
      tupleTypeItems := tupleTypeItems_readsOff ih
      suffixedType := fun h hn => by
        simp only [suffixedType, yields_bind]
        refine (ih.atomicType h (by omega)).mono fun atom s₁ h₁ => ?_
        have hle := rest_le h₁
        exact typeSuffixes_readsOff atom h₁ (by omega)
      atomicType := atomicType_readsOff ih }

/-! Patterns -/

theorem invalidPattern_readsOff (h : Parted s.prevEnd s.rest) :
    invalidPattern.Yields s fun p s' => ReadsOff p.landmarks s.place s'.place :=
  readsOff_report h _

/-- Tokens that a parameter starts with. -/
def startsPattern : Token → Bool
  | .ident _ | .punct .lparen => true
  | _ => false

structure PatternsRead (n : Nat) : Prop where
  atomicPattern : ∀ {s}, Parted s.prevEnd s.rest → 32 * s.rest.length + 1 ≤ n →
    (atomicPattern n).Yields s fun p s' => ReadsOff p.landmarks s.place s'.place ∧
      (startsPattern s.peek = true → s'.rest.length < s.rest.length)
  tuplePattern : ∀ {s}, Parted s.prevEnd s.rest → 32 * s.rest.length + 3 ≤ n →
    (tuplePattern n).Yields s fun p s' => ReadsOff p.landmarks s.place s'.place
  tuplePatternItems : ∀ {s} item, Parted s.prevEnd s.rest → 32 * s.rest.length + 1 ≤ n →
    (tuplePatternItems n item).Yields s fun ps s' =>
      ReadsOff (Pattern.landmarksOfAll ps) s.place s'.place
  annotatedPattern : ∀ {s}, Parted s.prevEnd s.rest → 32 * s.rest.length + 2 ≤ n →
    (annotatedPattern n).Yields s fun p s' => ReadsOff p.landmarks s.place s'.place

theorem atomicPattern_readsOff (ih : PatternsRead n) (h : Parted s.prevEnd s.rest)
    (hn : 32 * s.rest.length + 1 ≤ n + 1) :
    (atomicPattern (n + 1)).Yields s fun p s' => ReadsOff p.landmarks s.place s'.place ∧
      (startsPattern s.peek = true → s'.rest.length < s.rest.length) := by
  simp only [atomicPattern, yields_bind, yields_get]
  have h₁ := readsOff_advance h
  split
  case h_1 text htoken =>
    simp only [yields_bind, yields_skip, yields_pure]
    have hend := atEnd_of_peek htoken (by simp)
    refine ⟨?_, fun _ => length_advance hend⟩
    split
    · exact h₁
    · exact readsOff_landmark h hend (Prod.ext htoken.symm rfl)
  case h_2 htoken =>
    simp only [yields_bind, yields_skip]
    have hlt := length_advance (atEnd_of_peek htoken (by simp))
    rw [yields_eat]
    split
    case isTrue =>
      have h₂ := readsOff_advance h₁.behind
      refine ⟨h₁.before h₂, fun _ => Nat.lt_of_le_of_lt (rest_le h₂) hlt⟩
    case isFalse =>
      simp only [yields_bind, yields_pure]
      have hinner := nested_yields (fun _ _ _ => id) (ih.tuplePattern
        (s := { s.advance with nesting := _ }) h₁.behind
        (show 32 * s.advance.rest.length + 3 ≤ n by omega))
      refine hinner.mono fun inner s₂ h₂ => ?_
      refine (closing_readsOff _ _ h₂.behind).mono fun stop s₃ h₃ => ?_
      have hread := h₂.andThen h₃.1
      rw [Pattern.landmarks_withSpan]
      exact ⟨h₁.before hread, fun _ => Nat.lt_of_le_of_lt hread.length_le hlt⟩
  case h_3 hident hparen =>
    refine (invalidPattern_readsOff h).mono fun p s' h' => ⟨h', fun hstarts => ?_⟩
    cases hpeek : s.peek with
    | ident text => exact (hident text hpeek).elim
    | punct p =>
      cases p with
      | lparen => exact (hparen hpeek).elim
      | _ => rw [hpeek] at hstarts; cases hstarts
    | _ => rw [hpeek] at hstarts; cases hstarts

theorem tuplePattern_readsOff (ih : PatternsRead n) (h : Parted s.prevEnd s.rest)
    (hn : 32 * s.rest.length + 3 ≤ n + 1) :
    (tuplePattern (n + 1)).Yields s fun p s' => ReadsOff p.landmarks s.place s'.place := by
  simp only [tuplePattern, yields_bind]
  refine (ih.annotatedPattern h (by omega)).mono fun first s₁ h₁ => ?_
  have hle := rest_le h₁
  refine (ih.tuplePatternItems first h₁.behind (by omega)).mono fun more s₂ h₂ => ?_
  split
  case h_1 =>
    rw [yields_pure]
    simpa only [Pattern.landmarks, Pattern.landmarksOfAll] using h₁.trans h₂
  case h_2 hnone =>
    rw [List.getLast?_eq_none_iff.mp hnone] at h₂
    exact h₁.andThen h₂

theorem tuplePatternItems_readsOff (ih : PatternsRead n) (item : Pattern)
    (h : Parted s.prevEnd s.rest) (hn : 32 * s.rest.length + 1 ≤ n + 1) :
    (tuplePatternItems (n + 1) item).Yields s fun ps s' =>
      ReadsOff (Pattern.landmarksOfAll ps) s.place s'.place := by
  simp only [tuplePatternItems]
  split
  case isTrue => exact ReadsOff.refl h
  case isFalse =>
    rw [yields_bind, yields_eat]
    split
    case isTrue hcomma =>
      simp only [yields_bind, yields_pure]
      have h₁ := readsOff_advance h
      have hlt := length_advance (atEnd_of_peek hcomma (by simp))
      refine (ih.annotatedPattern h₁.behind (by omega)).mono fun item s₂ h₂ => ?_
      have hle := rest_le h₂
      refine (ih.tuplePatternItems item h₂.behind (by omega)).mono fun more s₃ h₃ => ?_
      simpa only [Pattern.landmarksOfAll] using h₁.before (h₂.trans h₃)
    case isFalse => exact ReadsOff.refl h

theorem annotatedPattern_readsOff (ih : PatternsRead n) (h : Parted s.prevEnd s.rest)
    (hn : 32 * s.rest.length + 2 ≤ n + 1) :
    (annotatedPattern (n + 1)).Yields s fun p s' => ReadsOff p.landmarks s.place s'.place := by
  simp only [annotatedPattern, yields_bind]
  refine (ih.atomicPattern h (by omega)).mono fun pattern s₁ h₁ => ?_
  rw [yields_eat]
  split
  case isTrue hcolon =>
    simp only [yields_bind, yields_pure]
    have h₂ := readsOff_advance h₁.1.behind
    have hlt := length_advance (atEnd_of_peek hcolon (by simp))
    have hle := rest_le h₁.1
    refine ((typesRead n).type h₂.behind (by omega)).mono fun annotation s₃ h₃ => ?_
    simpa only [Pattern.landmarks] using h₁.1.trans (h₂.before h₃.1)
  case isFalse => exact h₁.1

theorem patternsRead (n : Nat) : PatternsRead n := by
  induction n with
  | zero => constructor <;> intros <;> omega
  | succ n ih =>
    exact {
      atomicPattern := atomicPattern_readsOff ih
      tuplePattern := tuplePattern_readsOff ih
      tuplePatternItems := tuplePatternItems_readsOff ih
      annotatedPattern := annotatedPattern_readsOff ih }

theorem params_readsOff (h : Parted s.prevEnd s.rest) (hn : 32 * s.rest.length + 2 ≤ n) :
    (params n).Yields s fun ps s' =>
      ReadsOff (Pattern.landmarksOfAll ps) s.place s'.place ∧ s'.place.Clear := by
  induction n generalizing s with
  | zero => omega
  | succ n ih =>
    have hmore (hstarts : startsPattern s.peek = true) : (do
        let p ← atomicPattern n
        let ps ← params n
        return p :: ps : Parser (List Pattern)).Yields s fun ps s' =>
          ReadsOff (Pattern.landmarksOfAll ps) s.place s'.place ∧ s'.place.Clear := by
      simp only [yields_bind, yields_pure]
      refine ((patternsRead n).atomicPattern h (by omega)).mono fun p s₁ h₁ => ?_
      have hlt := h₁.2 hstarts
      refine (ih h₁.1.behind (by omega)).mono fun ps s₂ h₂ => ⟨?_, h₂.2⟩
      simpa only [Pattern.landmarksOfAll] using h₁.1.trans h₂.1
    simp only [params, yields_bind, yields_get]
    split
    case h_1 htoken =>
      split
      case isTrue hoffside => exact ⟨ReadsOff.refl h, clear_of_isOffside h hoffside⟩
      case isFalse => exact hmore (by rw [htoken]; rfl)
    case h_2 htoken =>
      split
      case isTrue hoffside => exact ⟨ReadsOff.refl h, clear_of_isOffside h hoffside⟩
      case isFalse => exact hmore (by rw [htoken]; rfl)
    case h_3 hnot _ =>
      exact ⟨ReadsOff.refl h, clear_of_not_ident h (isIdent_of_not_ident hnot)⟩

end Parser
end ScriptAnalyzer

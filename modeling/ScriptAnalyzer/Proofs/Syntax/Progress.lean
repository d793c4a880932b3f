import ScriptAnalyzer.Proofs.Syntax.Methods
import Mathlib.Logic.Relation

/-!
Every method of the parser keeps what it finds, and every round of a loop and of a recursion passes a
token. Both are read off one round: with the methods that it asks for it reaches a state behind the
one that it starts in, and it asks only for methods in front of fewer tokens or of a lower rank.
-/

namespace ScriptAnalyzer
namespace Parser

open ParserState

variable {α β : Type} {s s' : ParserState} {M N : Oracle}

/-! Names, and what is skipped -/

theorem segments_round (h : Below M N (32 * s.rest.length + 1) s.rest) :
    Agree (round M .segments ()) (round N .segments ()) s fun _ => Follows s := by
  refine agree_get.mpr ?_
  split
  case h_1 text hdot hname =>
    rw [agree_skip, agree_bump]
    have h₁ := follows_advance s
    have h₂ := follows_advance s.advance
    have hlt := Nat.lt_of_le_of_lt h₂.length_le (advance_lt hdot (by simp))
    refine (h.later .segments () (h₁.trans h₂).suffix hlt).bind fun names s₃ h₃ => ?_
    exact .refl ((h₁.trans h₂).trans h₃.follows)
  case h_2 => exact .refl (Passes.refl s)

theorem longIdent_round (h : Below M N (32 * s.rest.length + 2) s.rest) :
    Agree (round M .longIdent ()) (round N .longIdent ()) s fun _ => Follows s := by
  refine .after (ident?_moves s) fun found s₁ h₁ => ?_
  cases found with
  | none => exact .refl h₁.1
  | some first =>
    refine (h.lower .segments () h₁.1.suffix rfl).bind fun names s₂ h₂ => ?_
    exact .refl (h₁.1.trans h₂.follows)

theorem skipWhile_round {t : LaidToken → Bool} (h : Below M N (32 * s.rest.length + 1) s.rest) :
    Agree (round M .skipWhile t) (round N .skipWhile t) s fun _ => Follows s := by
  refine agree_get.mpr ?_
  split
  case isTrue => exact .refl (Passes.refl s)
  case isFalse hnot =>
    rw [agree_skip]
    simp only [Bool.or_eq_true, not_or, Bool.not_eq_true] at hnot
    have h₁ := follows_advance s
    refine (h.later .skipWhile t h₁.suffix (length_advance hnot.1)).mono fun _ s₂ h₂ => ?_
    exact h₁.trans h₂.follows

theorem synchronize_round {column : Nat} (h : Below M N (32 * s.rest.length + 2) s.rest) :
    Agree (round M .synchronize column) (round N .synchronize column) s fun _ => Follows s :=
  (h.here .skipWhile _ rfl).follows

theorem skipStray_round (h : Below M N (32 * s.rest.length + 2) s.rest) :
    Agree (round M .skipStray ()) (round N .skipStray ()) s fun _ => Follows s := by
  refine agree_get.mpr ?_
  split
  · exact .refl (Passes.refl s)
  · refine .after (Q := fun _ => Follows s) (error_passes _ _ s) fun _ s₁ h₁ => ?_
    exact (h.lower .skipWhile _ h₁.suffix rfl).mono fun _ s₂ h₂ => h₁.trans h₂.follows

/-! Types -/

theorem typeSuffixes_round {t : TypeExpr} (h : Below M N (32 * s.rest.length + 1) s.rest) :
    Agree (round M .typeSuffixes t) (round N .typeSuffixes t) s fun _ => Follows s := by
  refine agree_get.mpr ?_
  split
  case isTrue => exact .refl (Passes.refl s)
  case isFalse =>
    split
    case h_1 =>
      refine .after (longIdent?_moves s) fun ctor s₁ h₁ => ?_
      cases ctor with
      | none => exact .refl h₁.1
      | some ctor =>
        refine (h.later .typeSuffixes _ h₁.1.suffix (h₁.2 rfl)).mono fun _ s₂ h₂ => ?_
        exact h₁.1.trans h₂.follows
    case h_2 hopen =>
      split
      case isTrue =>
        rw [agree_skip, agree_bump]
        have h₁ := follows_advance s
        have h₂ := follows_advance s.advance
        have hlt := Nat.lt_of_le_of_lt h₂.length_le (advance_lt hopen (by simp))
        refine (h.later .typeSuffixes _ (h₁.trans h₂).suffix hlt).mono fun _ s₃ h₃ => ?_
        exact (h₁.trans h₂).trans h₃.follows
      case isFalse => exact .refl (Passes.refl s)
    case h_3 => exact .refl (Passes.refl s)

theorem atomicType_round (h : Below M N (32 * s.rest.length + 1) s.rest) :
    Agree (round M .atomicType ()) (round N .atomicType ()) s fun _ => Follows s := by
  refine agree_get.mpr ?_
  split
  case isTrue => exact .refl (missingType_passes s)
  case isFalse =>
    split
    case h_1 =>
      refine .after (longIdent?_passes resuming_none s) fun name s₁ h₁ => ?_
      cases name with
      | some name => exact .refl h₁
      | none => exact .refl (h₁.trans (missingType_passes s₁))
    case h_2 => exact .refl (follows_advance s)
    case h_3 hopen =>
      rw [agree_bump]
      have h₁ := follows_advance s
      have hlt := advance_lt hopen (by simp)
      refine (nested_agree (.follows (h.later .type () h₁.suffix hlt))).bind fun inner s₂ h₂ => ?_
      exact .refl ((h₁.trans h₂).trans (closing_passes resuming_none _ _ s₂))
    case h_4 => exact .refl (missingType_passes s)

theorem suffixedType_round (h : Below M N (32 * s.rest.length + 2) s.rest) :
    Agree (round M .suffixedType ()) (round N .suffixedType ()) s fun _ => Follows s := by
  refine (h.here .atomicType () rfl).bind fun atom s₁ h₁ => ?_
  refine (h.lower .typeSuffixes atom h₁.follows.suffix rfl).mono fun _ s₂ h₂ => ?_
  exact h₁.follows.trans h₂.follows

theorem tupleTypeItems_round (h : Below M N (32 * s.rest.length + 1) s.rest) :
    Agree (round M .tupleTypeItems ()) (round N .tupleTypeItems ()) s fun _ => Follows s := by
  refine agree_get.mpr ?_
  split
  case isTrue hstar =>
    rw [agree_skip]
    have hlt := advance_lt (peek_of_test hstar) (by simp)
    exact h.cons .suffixedType () .tupleTypeItems (fun _ => ()) (follows_advance s) hlt
  case isFalse => exact .refl (Passes.refl s)

theorem tupleType_round (h : Below M N (32 * s.rest.length + 3) s.rest) :
    Agree (round M .tupleType ()) (round N .tupleType ()) s fun _ => Follows s := by
  refine (h.here .suffixedType () rfl).bind fun first s₁ h₁ => ?_
  refine (h.lower .tupleTypeItems () h₁.follows.suffix rfl).bind fun more s₂ h₂ => ?_
  have hs := h₁.follows.trans h₂.follows
  cases more.getLast? with
  | some last => exact .refl hs
  | none => exact .refl hs

theorem type_round (h : Below M N (32 * s.rest.length + 4) s.rest) :
    Agree (round M .type ()) (round N .type ()) s fun _ => Follows s := by
  refine (h.here .tupleType () rfl).bind fun lhs s₁ h₁ => ?_
  simp only [agree_get]
  split
  case isTrue harrow =>
    rw [agree_skip]
    have h₂ := follows_advance s₁
    have hlt := advance_lt (peek_of_test harrow) (by simp)
    refine (h.behind .type () h₁.follows h₂ hlt).bind fun rhs s₃ h₃ => ?_
    exact .refl ((h₁.follows.trans h₂).trans h₃)
  case isFalse => exact .refl h₁.follows

/-! Patterns -/

theorem atomicPattern_round (h : Below M N (32 * s.rest.length + 1) s.rest) :
    Agree (round M .atomicPattern ()) (round N .atomicPattern ()) s fun _ =>
      Advances (Method.atomicPattern.MustRead s) s := by
  refine agree_get.mpr ?_
  dsimp only
  split
  case h_1 text hname => exact .refl ⟨follows_advance s, fun _ => advance_lt hname (by simp)⟩
  case h_2 hopen =>
    rw [agree_skip]
    have h₁ := follows_advance s
    have hlt := advance_lt hopen (by simp)
    suffices hrest : ∀ s', Follows s.advance s' → Advances (Method.atomicPattern.MustRead s) s s' by
      refine .after (eat_moves _ s.advance) fun found s₂ h₂ => ?_
      cases found with
      | some close => exact .refl (hrest _ h₂.1)
      | none =>
        have k₂ := h₁.trans h₂.1
        have hlt₂ := Nat.lt_of_le_of_lt h₂.1.length_le hlt
        refine (nested_agree (.follows (h.later .tuplePattern () k₂.suffix hlt₂))).bind
          fun inner s₃ h₃ => ?_
        exact .refl (hrest _ ((h₂.1.trans h₃).trans (closing_passes resuming_none _ _ s₃)))
    exact fun s' h' => ⟨h₁.trans h', fun _ => Nat.lt_of_le_of_lt h'.length_le hlt⟩
  case h_3 hident hparen =>
    refine .refl ⟨invalidPattern_passes s, fun hstarts => ?_⟩
    change startsPattern s.peek = true at hstarts
    unfold startsPattern at hstarts
    split at hstarts
    case h_1 text hname => exact (hident text hname).elim
    case h_2 hopen => exact (hparen hopen).elim
    case h_3 => cases hstarts

theorem annotatedPattern_round (h : Below M N (32 * s.rest.length + 2) s.rest) :
    Agree (round M .annotatedPattern ()) (round N .annotatedPattern ()) s fun _ => Follows s := by
  refine (h.here .atomicPattern () rfl).bind fun pattern s₁ h₁ => ?_
  refine .after (eat_moves _ s₁) fun found s₂ h₂ => ?_
  cases found with
  | none => exact .refl (h₁.follows.trans h₂.1)
  | some colon =>
    refine (h.behind .type () h₁.follows h₂.1 (h₂.2 ⟨rfl, by simp⟩)).bind fun annotation s₃ h₃ => ?_
    exact .refl ((h₁.follows.trans h₂.1).trans h₃)

theorem tuplePatternItems_round {item : Pattern} (h : Below M N (32 * s.rest.length + 1) s.rest) :
    Agree (round M .tuplePatternItems item) (round N .tuplePatternItems item) s fun _ => Follows s := by
  simp only [round]
  split
  · exact .refl (Passes.refl s)
  · refine .after (eat_moves _ s) fun found s₁ h₁ => ?_
    cases found with
    | none => exact .refl h₁.1
    | some comma => exact h.cons .annotatedPattern () .tuplePatternItems id h₁.1 (h₁.2 ⟨rfl, by simp⟩)

theorem tuplePattern_round (h : Below M N (32 * s.rest.length + 3) s.rest) :
    Agree (round M .tuplePattern ()) (round N .tuplePattern ()) s fun _ => Follows s := by
  refine (h.here .annotatedPattern () rfl).bind fun first s₁ h₁ => ?_
  refine (h.lower .tuplePatternItems first h₁.follows.suffix rfl).bind fun more s₂ h₂ => ?_
  have hs := h₁.follows.trans h₂.follows
  cases more.getLast? with
  | some last => exact .refl hs
  | none => exact .refl hs

theorem params_round (h : Below M N (32 * s.rest.length + 2) s.rest) :
    Agree (round M .params ()) (round N .params ()) s fun _ => Follows s := by
  have hparam (hstarts : startsPattern s.peek = true) : Agree
      (do let p ← M .atomicPattern (); let ps ← M .params (); return p :: ps)
      (do let p ← N .atomicPattern (); let ps ← N .params (); return p :: ps) s
      fun _ => Follows s := by
    refine (h.here .atomicPattern () rfl).bind fun p s₁ h₁ => ?_
    refine (h.later .params () h₁.follows.suffix (h₁.reads hstarts)).bind fun ps s₂ h₂ => ?_
    exact .refl (h₁.follows.trans h₂.follows)
  refine agree_get.mpr ?_
  split
  case h_1 text hname =>
    split
    · exact .refl (Passes.refl s)
    · exact hparam (by rw [hname]; rfl)
  case h_2 hopen =>
    split
    · exact .refl (Passes.refl s)
    · exact hparam (by rw [hopen]; rfl)
  case h_3 => exact .refl (Passes.refl s)

/-! Bindings and blocks -/

theorem binding_round (h : Below M N (32 * s.rest.length + 3) s.rest) :
    Agree (round M .binding ()) (round N .binding ()) s fun _ => Follows s.advance := by
  refine agree_bump.mpr ?_
  have h₁ := follows_advance s
  refine .after (eat_moves _ s.advance) fun recToken s₂ h₂ => ?_
  have k₂ := h₂.1
  have hpattern := (h.lower .atomicPattern () (h₁.trans k₂).suffix rfl).follows
  refine (bindingPattern_agree hpattern).bind fun pattern s₃ h₃ => ?_
  have k₃ := k₂.trans h₃
  refine (h.lower .params () (h₁.trans k₃).suffix rfl).bind fun parameters s₄ h₄ => ?_
  have k₄ := k₃.trans h₄.follows
  refine .after (Q := fun _ => Follows s₄) (when_passes (error_passes _ _ s₄)) fun _ s₅ h₅ => ?_
  have k₅ := k₄.trans h₅
  refine (behind?_agree (by simp) fun s' hs hlt => h.behind .type () (h₁.trans k₅) hs hlt).bind
    fun returnType s₆ h₆ => ?_
  have k₆ := k₅.trans h₆
  refine (behind_agree (by simp) fun s' hs hlt => h.behind .body () (h₁.trans k₆) hs hlt).bind
    fun value s₇ h₇ => ?_
  exact .refl (k₆.trans h₇)

theorem letScope_round {b : Binding} (h : Below M N (32 * s.rest.length + 14) s.rest) :
    Agree (round M .letScope b) (round N .letScope b) s fun _ => Follows s := by
  refine agree_skip.mpr ?_
  have h₁ := follows_advance s
  exact (h.lower .body () h₁.suffix rfl).bind fun scope s₂ h₂ => .refl (h₁.trans h₂.follows)

theorem body_round (h : Below M N (32 * s.rest.length + 13) s.rest) :
    Agree (round M .body ()) (round N .body ()) s fun _ => Follows s := by
  refine agree_get.mpr ?_
  split
  · exact .refl (passes_report s _)
  · split
    · exact withOffside_agree (.follows (h.lower .statements _ (List.suffix_refl _) rfl))
    · exact (h.here .expr () rfl).follows

theorem statements_round {column : Nat} (h : Below M N (32 * s.rest.length + 12) s.rest) :
    Agree (round M .statements column) (round N .statements column) s fun _ => Follows s := by
  refine agree_get.mpr ?_
  split
  case isTrue hlet =>
    refine (h.here .binding () rfl).bind fun b s₁ h₁ => ?_
    have hlt := h₁.reads (atEnd_of_peek hlet (by simp))
    simp only [agree_get]
    split
    case isTrue =>
      refine (h.later .letScope b h₁.follows.suffix hlt).mono fun _ s₂ h₂ => ?_
      exact h₁.follows.trans h₂.follows
    case isFalse =>
      refine .after (skipStray_passes resuming_none s₁) fun _ s₂ h₂ => ?_
      have k₂ := h₁.follows.trans h₂
      have hlt₂ := Nat.lt_of_le_of_lt h₂.length_le hlt
      have hmore := (h.later .statements column k₂.suffix hlt₂).follows
      exact (blockRest_agree hmore).bind fun scope s₃ h₃ => .refl (k₂.trans h₃)
  case isFalse =>
    rw [agree_get]
    refine .after (setAnchor_follows s) fun _ s₁ h₁ => ?_
    refine (h.lower .expr () h₁.suffix rfl).bind fun first s₂ h₂ => ?_
    have k₂ := h₁.trans h₂.follows
    refine .after (ifStuck_moves k₂.suffix (skip_moves s₂)) fun _ s₃ h₃ => ?_
    have k₃ := k₂.trans h₃.1
    refine .after (skipStray_passes resuming_none s₃) fun _ s₄ h₄ => ?_
    have k₄ := k₃.trans h₄
    refine .after (atStatement_moves column s₄) fun found s₅ h₅ => ?_
    obtain ⟨rfl, hfound⟩ := h₅
    cases found with
    | true =>
      have hlt := Nat.lt_of_le_of_lt h₄.length_le (h₃.2 (k₄.atEnd (hfound rfl)))
      refine (h.later .statements column k₄.suffix hlt).bind fun second s₆ h₆ => ?_
      exact .refl (k₄.trans h₆.follows)
    | false => exact .refl k₄

/-! Expressions -/

theorem expr_round (h : Below M N (32 * s.rest.length + 11) s.rest) :
    Agree (round M .expr ()) (round N .expr ()) s fun _ => Follows s := by
  refine (h.here .simpleExpr () (Method.rank_simpleExpr_lt s)).bind fun first s₁ h₁ => ?_
  refine (h.lower .tupleItems () h₁.follows.suffix rfl).bind fun more s₂ h₂ => ?_
  have hs := h₁.follows.trans h₂.follows
  cases more.getLast? with
  | some last => exact .refl hs
  | none => exact .refl hs

theorem tupleItems_round (h : Below M N (32 * s.rest.length + 1) s.rest) :
    Agree (round M .tupleItems ()) (round N .tupleItems ()) s fun _ => Follows s := by
  refine agree_get.mpr ?_
  split
  case isTrue hcomma =>
    rw [agree_skip]
    have hlt := advance_lt (peek_of_test hcomma) (by simp)
    exact h.cons .simpleExpr () .tupleItems (fun _ => ()) (follows_advance s) hlt
  case isFalse => exact .refl (Passes.refl s)

theorem simpleExpr_round
    (h : Below M N (32 * s.rest.length + if startsOpenExpr s.peek then 4 else 10) s.rest) :
    Agree (round M .simpleExpr ()) (round N .simpleExpr ()) s fun _ => Follows s := by
  refine agree_get.mpr ?_
  split
  case h_1 hlet =>
    have hend := atEnd_of_peek hlet (by simp)
    rw [hlet] at h
    refine (h.here .binding () rfl).bind fun b s₁ h₁ => ?_
    simp only [agree_get]
    split
    case isTrue =>
      refine (h.later .letScope b h₁.follows.suffix (h₁.reads hend)).mono fun _ s₂ h₂ => ?_
      exact h₁.follows.trans h₂.follows
    case isFalse => exact .refl (h₁.follows.trans (passes_report s₁ _))
  case h_2 hif =>
    rw [hif] at h
    refine (h.here .conditional () ?_).follows
    rw [Method.rank, atEnd_of_peek hif (by simp)]
    rfl
  case h_3 hfun =>
    rw [hfun] at h
    exact (h.here .lambda () rfl).follows
  case h_4 hlet hif hfun =>
    have hopen : startsOpenExpr s.peek = false := by
      unfold startsOpenExpr
      split
      · exact (hif ‹_›).elim
      · exact (hfun ‹_›).elim
      · exact (hlet ‹_›).elim
      · rfl
    rw [hopen] at h
    exact (h.here .operand 0 rfl).follows

theorem conditional_round (h : Below M N (32 * s.rest.length + if s.atEnd then 20 else 3) s.rest) :
    Agree (round M .conditional ()) (round N .conditional ()) s fun _ => Follows s := by
  refine agree_bump.mpr ?_
  have h₁ := follows_advance s
  refine (h.inside .expr () (List.suffix_refl _) rfl).bind fun condition s₂ h₂ => ?_
  have k₂ := h₁.trans h₂
  refine (thenPart_agree fun s' hs hlt => h.behind .body () k₂ hs hlt).bind fun thenBranch s₃ h₃ => ?_
  have k₃ := k₂.trans h₃
  refine (elsePart_agree fun s' hs hlt => h.behind .body () k₃ hs hlt).bind fun elseBranch s₄ h₄ => ?_
  exact .refl (k₃.trans h₄)

theorem lambda_round (h : Below M N (32 * s.rest.length + 3) s.rest) :
    Agree (round M .lambda ()) (round N .lambda ()) s fun _ => Follows s := by
  refine agree_bump.mpr ?_
  have h₁ := follows_advance s
  refine (h.lower .params () h₁.suffix rfl).bind fun parameters s₂ h₂ => ?_
  have k₂ := h₁.trans h₂.follows
  refine .after (Q := fun _ => Follows s₂) (when_passes (missing_passes _ s₂)) fun _ s₃ h₃ => ?_
  have k₃ := k₂.trans h₃
  refine (behind_agree (by simp) fun s' hs hlt => h.behind .body () k₃ hs hlt).bind fun value s₄ h₄ => ?_
  exact .refl (k₃.trans h₄)

theorem operand_round {power : Nat} (h : Below M N (32 * s.rest.length + 9) s.rest) :
    Agree (round M .operand power) (round N .operand power) s fun _ => Follows s := by
  refine (h.here .unary () rfl).bind fun lhs s₁ h₁ => ?_
  refine (h.lower .operations (power, lhs) h₁.follows.suffix rfl).mono fun _ s₂ h₂ => ?_
  exact h₁.follows.trans h₂.follows

theorem operations_round {power : Nat} {lhs : Expr} (h : Below M N (32 * s.rest.length + 1) s.rest) :
    Agree (round M .operations (power, lhs)) (round N .operations (power, lhs)) s
      fun _ => Follows s := by
  refine agree_get.mpr ?_
  split
  case h_1 => exact .refl (Passes.refl s)
  case h_2 op left right hop =>
    split
    case isTrue => exact .refl (Passes.refl s)
    case isFalse =>
      rw [agree_bump]
      have h₁ := follows_advance s
      have hlt : s.advance.rest.length < s.rest.length := advance_lt rfl fun heof => by
        rw [heof] at hop
        cases hop
      have hopen := (h.later .simpleExpr () h₁.suffix hlt).follows
      have hclosed := (h.later .operand right h₁.suffix hlt).follows
      refine (rightOperand_agree hopen hclosed).bind fun rhs s₂ h₂ => ?_
      have k₂ := h₁.trans h₂
      have hlt₂ := Nat.lt_of_le_of_lt h₂.length_le hlt
      exact (h.later .operations _ k₂.suffix hlt₂).mono fun _ s₃ h₃ => k₂.trans h₃.follows

theorem unary_round (h : Below M N (32 * s.rest.length + 8) s.rest) :
    Agree (round M .unary ()) (round N .unary ()) s fun _ => Follows s := by
  refine agree_get.mpr ?_
  split
  case isTrue hminus =>
    rw [agree_bump]
    have h₁ := follows_advance s
    have hlt := advance_lt (peek_of_test hminus) (by simp)
    exact (h.later .unary () h₁.suffix hlt).bind fun inner s₂ h₂ => .refl (h₁.trans h₂.follows)
  case isFalse =>
    refine (h.here .accessed () rfl).bind fun function s₁ h₁ => ?_
    refine (h.lower .arguments function h₁.follows.suffix rfl).mono fun _ s₂ h₂ => ?_
    exact h₁.follows.trans h₂.follows

theorem arguments_round {function : Expr} (h : Below M N (32 * s.rest.length + 7) s.rest) :
    Agree (round M .arguments function) (round N .arguments function) s fun _ => Follows s := by
  refine agree_get.mpr ?_
  split
  case isTrue hstarts =>
    simp only [Bool.and_eq_true, Bool.not_eq_true'] at hstarts
    refine (h.here .accessed () rfl).bind fun argument s₁ h₁ => ?_
    refine (h.later .arguments _ h₁.follows.suffix (h₁.reads hstarts)).mono fun _ s₂ h₂ => ?_
    exact h₁.follows.trans h₂.follows
  case isFalse => exact .refl (Passes.refl s)

theorem accessed_round (h : Below M N (32 * s.rest.length + 6) s.rest) :
    Agree (round M .accessed ()) (round N .accessed ()) s
      fun _ => Advances (Method.accessed.MustRead s) s := by
  refine (h.here .atom () rfl).bind fun target s₁ h₁ => ?_
  refine (h.lower .accesses target h₁.follows.suffix rfl).mono fun _ s₂ h₂ => ?_
  refine ⟨h₁.follows.trans h₂.follows, fun hstarts => ?_⟩
  exact Nat.lt_of_le_of_lt h₂.follows.length_le (h₁.reads hstarts)

theorem accesses_round {target : Expr} (h : Below M N (32 * s.rest.length + 1) s.rest) :
    Agree (round M .accesses target) (round N .accesses target) s fun _ => Follows s := by
  have h₁ := follows_advance s
  have hmore {e : Expr} {s' : ParserState} (hlt : s.advance.rest.length < s.rest.length)
      (hs : Follows s.advance s') : Agree (M .accesses e) (N .accesses e) s' fun _ => Follows s := by
    have k := h₁.trans hs
    refine (h.later .accesses e k.suffix (Nat.lt_of_le_of_lt hs.length_le hlt)).mono fun _ s₃ h₃ => ?_
    exact k.trans h₃.follows
  refine agree_get.mpr ?_
  split
  case h_1 hdot =>
    have hlt := advance_lt hdot (by simp)
    split
    · exact .refl (Passes.refl s)
    · rw [agree_bump]
      refine .after (memberName?_passes resuming_none s.advance) fun name s₂ h₂ => ?_
      cases name with
      | some name => exact hmore hlt h₂
      | none =>
        refine .after (Q := fun _ => Follows s₂) (passes_report s₂ _) fun _ s₃ h₃ => ?_
        exact hmore hlt (h₂.trans h₃)
  case h_2 hopen =>
    have hlt := advance_lt hopen (by simp)
    split
    · exact .refl (Passes.refl s)
    · rw [agree_bump]
      refine (nested_agree (.follows (h.later .callArguments () h₁.suffix hlt))).bind fun r s₂ h₂ => ?_
      refine .after (Q := fun _ => Follows s₂) (parentheses_passes _ _ s₂) fun parens s₃ h₃ => ?_
      exact hmore hlt (h₂.trans h₃)
  case h_3 => exact .refl (Passes.refl s)

theorem callArguments_round (h : Below M N (32 * s.rest.length + 11) s.rest) :
    Agree (round M .callArguments ()) (round N .callArguments ()) s fun _ => Follows s := by
  refine .after (eat_moves _ s) fun found s₁ h₁ => ?_
  cases found with
  | some close => exact .refl h₁.1
  | none =>
    simp only [agree_get]
    split
    · exact .refl h₁.1
    · refine (h.lower .simpleExpr () h₁.1.suffix (Method.rank_simpleExpr_lt s₁)).bind fun arg s₂ h₂ => ?_
      have k₂ := h₁.1.trans h₂.follows
      refine .after (eat_moves _ s₂) fun found s₃ h₃ => ?_
      have k₃ := k₂.trans h₃.1
      have hmore (hlt : s₃.rest.length < s.rest.length) :=
        h.later .callArguments () k₃.suffix hlt
      cases found with
      | some comma =>
        have hlt := Nat.lt_of_lt_of_le (h₃.2 ⟨rfl, by simp⟩) k₂.length_le
        exact (hmore hlt).bind fun r s₄ h₄ => .refl (k₃.trans h₄.follows)
      | none =>
        simp only [agree_get]
        split
        case isTrue => exact .refl k₃
        case isFalse hread =>
          simp only [Bool.or_eq_true, decide_eq_true_eq, not_or] at hread
          have hle := (h₂.follows.trans h₃.1).length_le
          have hlt := Nat.lt_of_lt_of_le (Nat.lt_of_le_of_ne hle hread.1) h₁.1.length_le
          exact (hmore hlt).bind fun r s₄ h₄ => .refl (k₃.trans h₄.follows)

theorem not_startsAtom_of_startsOpenExpr {token : Token} (h : startsOpenExpr token = true) :
    token.startsAtom = false := by
  unfold startsOpenExpr at h
  split at h
  · rfl
  · rfl
  · rfl
  · cases h

/-- An atom that no token of its own opens. -/
theorem literalAtom_advances (hend : s.atEnd = false) (hident : s.peek.isIdent = false)
    (hpunct : ∀ p, s.peek = .punct p → s.peek.startsAtom = false) :
    (do
      match ← literal? s.current with
      | some value =>
        skip
        return .literal s.current.span value
      | none =>
        error .expectedExpression s.current.span
        return .error (.empty s.current.span.start) : Parser Expr).Yields s fun _ =>
      Advances (Method.atom.MustRead s) s := by
  have hvalue : (literal? s.current).Yields s fun value s' => Follows s s' ∧ s'.rest = s.rest ∧
      (s.peek.startsAtom = true → value.isSome = true) := by
    refine ⟨(literal?_passes _ s).1, congrArg Place.rest (literal?_place _ s), fun hstarts => ?_⟩
    refine literal?_isSome s hstarts hident fun p hp => ?_
    rw [hpunct p hp] at hstarts
    cases hstarts
  rw [yields_bind]
  refine hvalue.mono fun value s₁ h₁ => ?_
  obtain ⟨h₁, hrest, hsome⟩ := h₁
  cases value with
  | some value =>
    have hend₁ : s₁.atEnd = false := by rwa [atEnd, hrest]
    exact ⟨h₁.trans (follows_advance s₁), fun _ => hrest ▸ length_advance hend₁⟩
  | none =>
    refine ⟨h₁.trans (passes_report s₁ _), fun hstarts => ?_⟩
    cases hsome hstarts.1

theorem atom_round (h : Below M N (32 * s.rest.length + 5) s.rest) :
    Agree (round M .atom ()) (round N .atom ()) s fun _ => Advances (Method.atom.MustRead s) s := by
  refine agree_get.mpr ?_
  split
  case isTrue hoff =>
    refine .refl ⟨passes_report s _, fun hstarts => ?_⟩
    cases hoff.symm.trans hstarts.2
  case isFalse hoff =>
    have hend : s.atEnd = false := atEnd_of_not_isOffside hoff
    have hbracket : (if s.atEnd then 20 else 3 : Nat).blt 5 = true := by rw [hend]; rfl
    have hopen (hstarts : startsOpenExpr s.peek = true) :
        Agree (M .simpleExpr ()) (N .simpleExpr ()) s fun _ => Advances (Method.atom.MustRead s) s := by
      have hrank : (if startsOpenExpr s.peek then 4 else 10 : Nat).blt 5 = true := by rw [hstarts]; rfl
      refine (h.here .simpleExpr () hrank).mono fun _ s₁ h₁ => ⟨h₁.follows, ?_⟩
      intro hatom
      cases (not_startsAtom_of_startsOpenExpr hstarts).symm.trans hatom.1
    dsimp only
    split
    case h_1 text hname => exact .refl ⟨follows_advance s, fun _ => length_advance hend⟩
    case h_2 =>
      refine (h.here .parenthesised () hbracket).mono fun _ s₁ h₁ => ?_
      exact ⟨h₁.follows, fun _ => h₁.reads hend⟩
    case h_3 =>
      refine (h.here .list () hbracket).bind fun r s₁ h₁ => ?_
      exact .refl ⟨h₁.follows, fun _ => h₁.reads hend⟩
    case h_4 =>
      refine (h.here .record () hbracket).bind fun r s₁ h₁ => ?_
      exact .refl ⟨h₁.follows, fun _ => h₁.reads hend⟩
    case h_5 hif => exact hopen (by rw [peek, hif]; rfl)
    case h_6 hfun => exact hopen (by rw [peek, hfun]; rfl)
    case h_7 hlet => exact hopen (by rw [peek, hlet]; rfl)
    case h_8 hident hparen hbracket hbrace _ _ _ =>
      refine .refl (literalAtom_advances hend (isIdent_of_not_ident hident) fun p hp => ?_)
      rw [hp]
      cases p with
      | lparen => exact (hparen hp).elim
      | lbracket => exact (hbracket hp).elim
      | lbrace => exact (hbrace hp).elim
      | _ => rfl

/-! Brackets -/

theorem parenthesised_round (h : Below M N (32 * s.rest.length + if s.atEnd then 20 else 3) s.rest) :
    Agree (round M .parenthesised ()) (round N .parenthesised ()) s fun _ => Follows s.advance := by
  refine agree_bump.mpr ?_
  refine .after (eat_moves _ s.advance) fun found s₂ h₂ => ?_
  cases found with
  | some close => exact .refl h₂.1
  | none =>
    refine (nested_agree (h.inside .annotated () h₂.1.suffix rfl)).bind fun inner s₃ h₃ => ?_
    exact .refl ((h₂.1.trans h₃).trans (closing_passes resuming_none _ _ s₃))

theorem annotated_round (h : Below M N (32 * s.rest.length + 12) s.rest) :
    Agree (round M .annotated ()) (round N .annotated ()) s fun _ => Follows s := by
  refine (h.here .expr () rfl).bind fun inner s₁ h₁ => ?_
  simp only [agree_get]
  split
  case isTrue hcolon =>
    rw [agree_skip]
    have h₂ := follows_advance s₁
    have hlt := advance_lt (peek_of_test hcolon) (by simp)
    refine (h.behind .type () h₁.follows h₂ hlt).bind fun annotation s₃ h₃ => ?_
    exact .refl ((h₁.follows.trans h₂).trans h₃)
  case isFalse => exact .refl h₁.follows

theorem recordField_round (h : Below M N (32 * s.rest.length + 1) s.rest) :
    Agree (round M .recordField ()) (round N .recordField ()) s fun _ => Follows s := by
  refine .after (ident?_moves s) fun found s₁ h₁ => ?_
  cases found with
  | none => exact .refl h₁.1
  | some name =>
    refine (behind_agree (by simp) fun s' hs hlt => h.behind .expr () h₁.1 hs hlt).bind
      fun value s₂ h₂ => ?_
    exact .refl (h₁.1.trans h₂)

theorem listItems_round {unclosed : SyntaxError} (h : Below M N (32 * s.rest.length + 12) s.rest) :
    Agree (round M .listItems unclosed) (round N .listItems unclosed) s fun _ => Follows s :=
  itemsRound_agree (fun _ hs => (h.lower .expr () hs rfl).follows.map some)
    fun _ hs hlt => (h.later .listItems unclosed hs hlt).follows

theorem recordItems_round {unclosed : SyntaxError} (h : Below M N (32 * s.rest.length + 2) s.rest) :
    Agree (round M .recordItems unclosed) (round N .recordItems unclosed) s fun _ => Follows s :=
  itemsRound_agree (fun _ hs => (h.lower .recordField () hs rfl).follows)
    fun _ hs hlt => (h.later .recordItems unclosed hs hlt).follows

theorem list_round (h : Below M N (32 * s.rest.length + if s.atEnd then 20 else 3) s.rest) :
    Agree (round M .list ()) (round N .list ()) s fun _ => Follows s.advance :=
  bracketRound_agree fun e _ hs => h.inside .listItems e (hs ▸ List.suffix_refl _) rfl

theorem record_round (h : Below M N (32 * s.rest.length + if s.atEnd then 20 else 3) s.rest) :
    Agree (round M .record ()) (round N .record ()) s fun _ => Follows s.advance :=
  bracketRound_agree fun e _ hs => h.inside .recordItems e (hs ▸ List.suffix_refl _) rfl

/-! Declarations -/

theorem nameEnd_round {k : Nat} (h : Below M N (32 * (s.rest.length - k) + 1) s.rest) :
    Agree (round M .nameEnd k) (round N .nameEnd k) s fun _ => Follows s := by
  refine agree_get.mpr ?_
  split
  case isTrue hname =>
    have hlt := lt_length_of_partOfName hname
    refine (h .nameEnd (k + 1) s (List.suffix_refl _) ?_).follows
    change 32 * (s.rest.length - (k + 1)) + 1 < 32 * (s.rest.length - k) + 1
    omega
  case isFalse => exact .refl (Passes.refl s)

theorem header_round (h : Below M N (32 * s.rest.length + 2) s.rest) :
    Agree (round M .header ()) (round N .header ()) s fun _ => Follows s := by
  refine agree_get.mpr ?_
  split
  · exact .refl (Passes.refl s)
  · refine (h.here .nameEnd 1 rfl).bind fun k s₁ h₁ => ?_
    split
    · exact .refl h₁.follows
    · rw [agree_skip]
      have k₂ := h₁.follows.trans (follows_advance s₁)
      refine .after (longIdent?_moves _) fun found s₃ h₃ => ?_
      cases found with
      | some name => exact .refl (k₂.trans h₃.1)
      | none => exact .refl ((k₂.trans h₃.1).trans (unexpected_passes s₃))

theorem fieldDecls_round {unclosed : SyntaxError} (h : Below M N (32 * s.rest.length + 1) s.rest) :
    Agree (round M .fieldDecls unclosed) (round N .fieldDecls unclosed) s fun _ => Follows s := by
  have hmore {s₁ s₂ : ParserState} (h₁ : Follows s s₁) (h₂ : Follows s₁ s₂)
      (hlt : s₂.rest.length < s₁.rest.length) :
      Agree (M .fieldDecls unclosed) (N .fieldDecls unclosed) s₂ fun _ => Follows s :=
    (h.behind .fieldDecls unclosed h₁ h₂ hlt).mono fun _ s₃ h₃ => (h₁.trans h₂).trans h₃
  refine .after (eat_moves _ s) fun found s₁ h₁ => ?_
  cases found with
  | some close => exact .refl h₁.1
  | none =>
    simp only [agree_get]
    split
    case isTrue => exact .refl (h₁.1.trans (passes_report s₁ _))
    case isFalse hcolumn =>
      have hend := atEnd_of_not_beforeColumn hcolumn
      refine .after (eat_moves _ s₁) fun found s₂ h₂ => ?_
      cases found with
      | some semicolon => exact hmore h₁.1 h₂.1 (h₂.2 ⟨rfl, by simp⟩)
      | none =>
        have k₂ := h₁.1.trans h₂.1
        refine .after (ident?_moves s₂) fun found s₃ h₃ => ?_
        cases found with
        | none =>
          refine .after (reject_moves s₃) fun _ s₄ h₄ => ?_
          have k₄ := (h₂.1.trans h₃.1).trans h₄.1
          exact hmore h₁.1 k₄ (lt_of_moves (h₂.1.trans h₃.1).suffix hend h₄.1.length_le h₄.2)
        | some name =>
          refine .after (expect_moves _ _ s₃) fun colon s₄ h₄ => ?_
          have k₄ := h₃.1.trans h₄.1
          have hlt := Nat.lt_of_le_of_lt h₄.1.length_le (h₃.2 rfl)
          refine (h.behind .type () k₂ k₄ hlt).bind fun fieldType s₅ h₅ => ?_
          have hlt₅ := Nat.lt_of_le_of_lt h₅.length_le hlt
          exact (hmore k₂ (k₄.trans h₅) hlt₅).bind fun fields s₆ h₆ => .refl h₆

theorem typeDecl_round (h : Below M N (32 * s.rest.length + 1) s.rest) :
    Agree (round M .typeDecl ()) (round N .typeDecl ()) s fun _ => Follows s := by
  refine agree_skip.mpr ?_
  have h₁ := follows_advance s
  refine .after (ident?_moves _) fun found s₂ h₂ => ?_
  have k₂ := h₁.trans h₂.1
  cases found with
  | none => exact .refl (k₂.trans (missing_passes _ s₂))
  | some name =>
    refine .after (expect_moves _ _ s₂) fun found s₃ h₃ => ?_
    have k₃ := k₂.trans h₃.1
    cases found with
    | none => exact .refl k₃
    | some equals =>
      have hlt := Nat.lt_of_lt_of_le (h₃.2 ⟨rfl, by simp⟩) k₂.length_le
      simp only [agree_get]
      split
      case isTrue =>
        simp only [agree_bump, agree_get]
        have h₄ := follows_advance s₃
        refine (nested_agree (withOffside_agree (.follows (h.later .fieldDecls _ (k₃.trans h₄).suffix
          (Nat.lt_of_le_of_lt h₄.length_le hlt))))).bind fun fields s₅ h₅ => ?_
        exact .refl ((k₃.trans h₄).trans h₅)
      case isFalse =>
        refine (h.later .type () k₃.suffix hlt).bind fun abbreviated s₄ h₄ => ?_
        exact .refl (k₃.trans h₄.follows)

theorem directiveArgs_round {invalid : SyntaxError.Cause}
    (h : Below M N (32 * s.rest.length + 1) s.rest) :
    Agree (round M .directiveArgs invalid) (round N .directiveArgs invalid) s fun _ => Follows s := by
  refine agree_get.mpr ?_
  dsimp only
  split
  case isTrue => exact .refl (Passes.refl s)
  case isFalse hline =>
    refine .after (Q := fun _ => Follows s) (when_passes (error_passes _ _ s)) fun _ s₁ h₁ => ?_
    refine .after (skip_moves s₁) fun _ s₂ h₂ => ?_
    have k₂ := h₁.trans h₂.1
    have hlt := lt_of_moves h₁.suffix (atEnd_of_not_lineStart hline) h₂.1.length_le h₂.2
    refine (h.later .directiveArgs invalid k₂.suffix hlt).bind fun args s₃ h₃ => ?_
    exact .refl (k₂.trans h₃.follows)

theorem directive_round {raw : String} (h : Below M N (32 * s.rest.length + 2) s.rest) :
    Agree (round M .directive raw) (round N .directive raw) s fun _ => Follows s := by
  refine agree_bump.mpr ?_
  have h₁ := follows_advance s
  refine (h.lower .directiveArgs _ h₁.suffix rfl).bind fun args s₂ h₂ => ?_
  have k₂ := h₁.trans h₂.follows
  simp only [agree_get]
  refine .after (Q := fun _ => Follows s₂) (when_passes (passes_report s₂ _)) fun _ s₃ h₃ => ?_
  exact .refl (k₂.trans h₃)

theorem decls_round {column : Nat} (h : Below M N (32 * s.rest.length + 13) s.rest) :
    Agree (round M .decls column) (round N .decls column) s fun _ => Follows s := by
  refine agree_get.mpr ?_
  split
  case isTrue => exact .refl (Passes.refl s)
  case isFalse hcolumn =>
    have hend := atEnd_of_not_beforeColumn hcolumn
    dsimp only
    split
    case isTrue =>
      refine .after (Q := fun _ => Follows s) (error_passes _ _ s) fun _ s₁ h₁ => ?_
      refine .after (skip_moves s₁) fun _ s₂ h₂ => ?_
      have k₂ := h₁.trans h₂.1
      refine .after (synchronize_passes resuming_none (Nat.zero_le _) s₂) fun _ s₃ h₃ => ?_
      have hlt := Nat.lt_of_le_of_lt h₃.length_le (lt_of_moves h₁.suffix hend h₂.1.length_le h₂.2)
      have k₃ := k₂.trans h₃
      exact (h.later .decls column k₃.suffix hlt).mono fun _ s₄ h₄ => k₃.trans h₄.follows
    case isFalse =>
      refine .after (setAnchor_follows s) fun _ s₁ h₁ => ?_
      refine (h.lower .decl column h₁.suffix rfl).bind fun d s₂ h₂ => ?_
      have k₂ := h₁.trans h₂.follows
      refine .after (ifStuck_moves k₂.suffix (reject_moves s₂)) fun _ s₃ h₃ => ?_
      have k₃ := k₂.trans h₃.1
      simp only [agree_get]
      refine .after (Q := fun _ => Follows s₃) (when_passes (unexpected_passes s₃)) fun _ s₄ h₄ => ?_
      refine .after (synchronize_passes resuming_none (Nat.zero_le _) s₄) fun _ s₅ h₅ => ?_
      have k₅ := h₄.trans h₅
      have hlt := Nat.lt_of_le_of_lt k₅.length_le (h₃.2 hend)
      refine (h.later .decls column (k₃.trans k₅).suffix hlt).bind fun ds s₆ h₆ => ?_
      exact .refl ((k₃.trans k₅).trans h₆.follows)

theorem decl_round {column : Nat} (h : Below M N (32 * s.rest.length + 12) s.rest) :
    Agree (round M .decl column) (round N .decl column) s fun _ => Follows s := by
  refine agree_get.mpr ?_
  refine Agree.bind (Q := fun _ => Follows s) ?_ fun shape s₁ h₁ => .refl h₁
  split
  case h_1 hlet =>
    refine (h.here .binding () rfl).bind fun b s₁ h₁ => ?_
    have hlt := h₁.reads (atEnd_of_peek hlet (by simp))
    simp only [agree_get]
    split
    case isTrue =>
      refine (h.later .letScope b h₁.follows.suffix hlt).bind fun e s₂ h₂ => ?_
      exact .refl (h₁.follows.trans h₂.follows)
    case isFalse => exact .refl h₁.follows
  case h_2 =>
    rw [agree_skip]
    have h₁ := follows_advance s
    refine .after (longIdent?_moves _) fun found s₂ h₂ => ?_
    cases found with
    | some path => exact .refl (h₁.trans h₂.1)
    | none => exact .refl ((h₁.trans h₂.1).trans (missing_passes _ s₂))
  case h_3 => exact (h.here .moduleDecl column rfl).follows
  case h_4 => exact (h.here .typeDecl () rfl).follows
  case h_5 raw _ =>
    exact (h.here .directive raw rfl).bind fun d s₁ h₁ => .refl h₁.follows
  case h_6 hdo =>
    rw [agree_skip]
    have h₁ := follows_advance s
    refine (h.later .body () h₁.suffix (advance_lt hdo (by simp))).bind fun e s₂ h₂ => ?_
    exact .refl (h₁.trans h₂.follows)
  case h_7 =>
    refine (h.here .expr () rfl).bind fun e s₁ h₁ => ?_
    exact .refl (h₁.follows.trans (skipStray_passes resuming_none s₁))

theorem moduleDecl_round {column : Nat} (h : Below M N (32 * s.rest.length + 1) s.rest) :
    Agree (round M .moduleDecl column) (round N .moduleDecl column) s fun _ => Follows s := by
  refine agree_skip.mpr ?_
  have h₁ := follows_advance s
  refine .after (ident?_moves _) fun found s₂ h₂ => ?_
  have k₂ := h₁.trans h₂.1
  cases found with
  | none => exact .refl (k₂.trans (missing_passes _ s₂))
  | some name =>
    refine .after (expect_moves _ _ s₂) fun found s₃ h₃ => ?_
    have k₃ := k₂.trans h₃.1
    cases found with
    | none => exact .refl k₃
    | some equals =>
      have hlt := Nat.lt_of_lt_of_le (h₃.2 ⟨rfl, by simp⟩) k₂.length_le
      simp only [agree_get]
      split
      case isTrue => exact .refl (k₃.trans (passes_report s₃ _))
      case isFalse =>
        refine Agree.bind (withOffside_agree (.follows (h.later .decls _ k₃.suffix hlt)))
          fun members s₄ h₄ => ?_
        exact .refl (k₃.trans h₄)

theorem file_round (h : Below M N (32 * s.rest.length + 14) s.rest) :
    Agree (round M .file ()) (round N .file ()) s fun _ => Follows s := by
  refine (h.here .header () rfl).bind fun name s₁ h₁ => ?_
  simp only [agree_get]
  refine Agree.bind (withOffside_agree (.follows (h.lower .decls _ h₁.follows.suffix rfl)))
    fun members s₂ h₂ => ?_
  exact .refl (h₁.follows.trans h₂)

/-! All methods -/

/-- Two oracles that agree below a method make the same of its round. -/
theorem round_agree (m : Method α β) (a : α) (h : Below M N (m.depth a s) s.rest) :
    Agree (round M m a) (round N m a) s fun _ => Advances (m.MustRead s) s := by
  -- the methods that are asked for at an opening token take it before they do anything else
  have hopens {m : Method α β} {p q : Parser β} (hm : m.MustRead s → s.atEnd = false)
      (h : Agree p q s fun _ => Follows s.advance) : Agree p q s fun _ => Advances (m.MustRead s) s :=
    h.mono fun _ _ h => advances_of_advance hm h
  cases m with
  | bump => exact .advances (.refl (follows_advance s)) id
  | eat => exact .advances (.refl ((eat_moves a s).mono fun _ _ h => h.follows)) id
  | report => exact .advances (.refl (passes_report s a)) id
  | unexpected => exact .advances (.refl (unexpected_passes s)) id
  | missing => exact .advances (.refl (missing_passes a s)) id
  | expect => exact .advances (.refl ((expect_moves a.1 a.2 s).mono fun _ _ h => h.follows)) id
  | ident => exact .advances (.refl (ident?_passes resuming_none s)) id
  | segments => exact (segments_round h).advances id
  | longIdent => exact (longIdent_round h).advances id
  | skipWhile => exact (skipWhile_round h).advances id
  | synchronize => exact (synchronize_round h).advances id
  | skipStray => exact (skipStray_round h).advances id
  | nameEnd => exact (nameEnd_round h).advances id
  | header => exact (header_round h).advances id
  | typeSuffixes => exact (typeSuffixes_round h).advances id
  | atomicType => exact (atomicType_round h).advances id
  | suffixedType => exact (suffixedType_round h).advances id
  | tupleTypeItems => exact (tupleTypeItems_round h).advances id
  | tupleType => exact (tupleType_round h).advances id
  | type => exact (type_round h).advances id
  | atomicPattern => exact atomicPattern_round h
  | annotatedPattern => exact (annotatedPattern_round h).advances id
  | tuplePatternItems => exact (tuplePatternItems_round h).advances id
  | tuplePattern => exact (tuplePattern_round h).advances id
  | params => exact (params_round h).advances id
  | binding => exact hopens id (binding_round h)
  | letScope => exact (letScope_round h).advances id
  | body => exact (body_round h).advances id
  | statements => exact (statements_round h).advances id
  | expr => exact (expr_round h).advances id
  | tupleItems => exact (tupleItems_round h).advances id
  | simpleExpr => exact (simpleExpr_round h).advances id
  | conditional => exact (conditional_round h).advances id
  | lambda => exact (lambda_round h).advances id
  | operand => exact (operand_round h).advances id
  | operations => exact (operations_round h).advances id
  | unary => exact (unary_round h).advances id
  | arguments => exact (arguments_round h).advances id
  | accessed => exact accessed_round h
  | accesses => exact (accesses_round h).advances id
  | callArguments => exact (callArguments_round h).advances id
  | atom => exact atom_round h
  | parenthesised => exact hopens id (parenthesised_round h)
  | annotated => exact (annotated_round h).advances id
  | listItems => exact (listItems_round h).advances id
  | list => exact hopens id (list_round h)
  | recordField => exact (recordField_round h).advances id
  | recordItems => exact (recordItems_round h).advances id
  | record => exact hopens id (record_round h)
  | fieldDecls => exact (fieldDecls_round h).advances id
  | typeDecl => exact (typeDecl_round h).advances id
  | directiveArgs => exact (directiveArgs_round h).advances id
  | directive => exact (directive_round h).advances id
  | decls => exact (decls_round h).advances id
  | decl => exact (decl_round h).advances id
  | moduleDecl => exact (moduleDecl_round h).advances id
  | file => exact (file_round h).advances id

/-! The loops that no number bounds -/

theorem segments_eq_nil (hnot : ∀ text, s.peek = .punct .dot → s.ahead 1 = .ident text → False) :
    segments s.rest = [] := by
  obtain ⟨rest⟩ := s
  fun_cases segments rest with
  | case1 dotSpan dotColumn dotStart text => exact (hnot text rfl rfl).elim
  | case2 => rfl

theorem readSegments_eq_round (n : Nat) (s : ParserState) :
    readSegments.run s = (round (bounded n) .segments ()).run s := by
  suffices h : (round (bounded n) .segments ()).Yields s fun names s' =>
    readSegments.run s = (names, s') from h
  simp only [round, yields_bind, yields_get]
  split
  case h_1 text hdot hname =>
    obtain ⟨rest, size, prevEnd, offside, anchor, nesting, kind, errors⟩ := s
    obtain _ | ⟨⟨token, span, column, lineStart⟩, _ | ⟨⟨token', span', column', lineStart'⟩, ts⟩⟩ := rest
    · cases hdot
    · cases hname
    · obtain rfl : token = .punct .dot := hdot
      obtain rfl : token' = .ident text := hname
      change (_, ParserState.mk (List.drop (2 * ((segments ts).length + 1)) (_ :: _ :: ts)) _
        ((List.getLast? (⟨text, span'⟩ :: segments ts)).map (·.span.stop) |>.getD prevEnd) _ _ _ _ _) =
        (_, ParserState.mk (ts.drop (2 * (segments ts).length)) _
          (((segments ts).getLast?.map (·.span.stop)).getD span'.stop) _ _ _ _ _)
      rw [Nat.mul_succ, List.drop_succ_cons, List.drop_succ_cons, List.getLast?_cons]
      cases (segments ts).getLast? with
      | none => rfl
      | some name => rfl
  case h_2 hnot =>
    change (segments s.rest, { s with
      rest := s.rest.drop (2 * (segments s.rest).length)
      prevEnd := ((segments s.rest).getLast?.map (·.span.stop)).getD s.prevEnd }) = ([], s)
    rw [segments_eq_nil hnot]
    rfl

theorem skipWhile_eq_round (t : LaidToken → Bool) (n : Nat) (s : ParserState) :
    (skipWhile t).run s = (round (bounded n) .skipWhile t).run s := by
  obtain ⟨rest, size, prevEnd, offside, anchor, nesting, kind, errors⟩ := s
  cases rest with
  | nil => rfl
  | cons u us =>
    change _ = StateT.run (if !t u then return () else do skip; skipWhile t) _
    change ((), ParserState.mk ((u :: us).dropWhile t) size (lastStop prevEnd ((u :: us).takeWhile t))
      _ _ _ _ _) = _
    rw [List.dropWhile_cons, List.takeWhile_cons]
    cases t u with
    | true =>
      rw [if_pos rfl, if_pos rfl, lastStop_cons]
      rfl
    | false => rfl

theorem readNameEnd_eq_round (k n : Nat) (s : ParserState) :
    (readNameEnd k).run s = (round (bounded n) .nameEnd k).run s := by
  change (k + ((s.rest.drop k).takeWhile fun t => partOfName t.token).length, s) =
    StateT.run (if partOfName (s.ahead k) then readNameEnd (k + 1) else return k) s
  cases hdrop : s.rest.drop k with
  | nil =>
    have hnot : partOfName (s.ahead k) = false := by rw [ahead, hdrop]; rfl
    rw [hnot]
    rfl
  | cons t ts =>
    have hahead : s.ahead k = t.token := by rw [ahead, hdrop]; rfl
    have hnext : s.rest.drop (k + 1) = ts := by rw [← List.tail_drop, hdrop]; rfl
    rw [hahead, List.takeWhile_cons]
    cases partOfName t.token with
    | true =>
      change _ = (k + 1 + ((s.rest.drop (k + 1)).takeWhile fun t => partOfName t.token).length, s)
      rw [hnext, if_pos rfl, List.length_cons, Nat.add_assoc, Nat.add_comm 1]
    | false => rfl

/-- The token at which the header's look-ahead ends is the first one behind the name. -/
theorem ahead_nameEnd (s : ParserState) :
    s.ahead (1 + ((s.rest.drop 1).takeWhile fun t => partOfName t.token).length) = .operator .eq ↔
      (s.rest.tail.dropWhile fun t => t.token.isIdent || t.token == .punct .dot).head?.map (·.token) =
        some (.operator .eq) := by
  have hdrop : s.rest.drop (1 + ((s.rest.drop 1).takeWhile fun t => partOfName t.token).length) =
      s.rest.tail.dropWhile fun t => partOfName t.token := by
    rw [← List.drop_drop, List.drop_one]
    generalize s.rest.tail = ts
    calc ts.drop (ts.takeWhile fun t => partOfName t.token).length
      _ = ((ts.takeWhile fun t => partOfName t.token) ++ ts.dropWhile fun t => partOfName t.token).drop
          (ts.takeWhile fun t => partOfName t.token).length := by rw [List.takeWhile_append_dropWhile]
      _ = ts.dropWhile fun t => partOfName t.token := List.drop_left
  rw [ahead, hdrop]
  change _ ↔ Option.map _ (s.rest.tail.dropWhile fun t => partOfName t.token).head? = _
  cases (s.rest.tail.dropWhile fun t => partOfName t.token).head? with
  | none =>
    constructor
    · intro h
      cases h
    · intro h
      cases h
  | some t => exact Option.some_inj.symm

theorem header_eq_round (n : Nat) (s : ParserState) :
    header.run s = (round (bounded n) .header ()).run s := by
  have hahead := ahead_nameEnd s
  suffices h : Agree header (round (bounded n) .header ()) s fun _ _ => True from h.same.symm
  simp only [header, round, agree_get]
  split
  · exact .refl trivial
  · refine ⟨?_, trivial⟩
    change StateT.run (if s.ahead (1 + _) = _ then _ else _) s = StateT.run (if _ = _ then _ else _) s
    by_cases hequals : s.ahead (1 + ((s.rest.drop 1).takeWhile fun t => partOfName t.token).length) =
        .operator .eq
    · rw [if_pos hequals, if_pos (hahead.mp hequals)]
    · exact congrArg (StateT.run · s) ((if_neg hequals).trans (if_neg fun h => hequals (hahead.mpr h)).symm)

/-! The bound on the recursion -/

/-- Below the depth `d` a method does the same with every bound that its own depth does not exceed. -/
def Settled (d : Nat) (rest : List LaidToken) : Prop :=
  ∀ ⦃α β : Type⦄ (m : Method α β) (a : α) (s : ParserState), s.rest <:+ rest → m.depth a s < d →
    ∀ n n', m.depth a s ≤ n → m.depth a s ≤ n' →
      Agree (bounded n m a) (bounded n' m a) s fun _ => Advances (m.MustRead s) s

theorem Settled.below {d k k' : Nat} {rest : List LaidToken} (h : Settled d rest) (hk : d ≤ k + 1)
    (hk' : d ≤ k' + 1) : Below (bounded k) (bounded k') d rest :=
  fun _ _ m a s hs hd => h m a s hs hd k k' (Nat.le_of_lt_succ (Nat.lt_of_lt_of_le hd hk))
    (Nat.le_of_lt_succ (Nat.lt_of_lt_of_le hd hk'))

theorem directiveArgs_of_nil (invalid : SyntaxError.Cause) (n : Nat) (hs : s.rest = []) :
    (directiveArgs invalid n).run s = ([], s) := by
  obtain ⟨rest⟩ := s
  obtain rfl : rest = [] := hs
  cases n with
  | zero => rfl
  | succ n => rfl

theorem directiveArgs_agree (invalid : SyntaxError.Cause) {n k : Nat} (hn : s.rest.length ≤ n)
    (hk : s.rest.length ≤ k) :
    Agree (directiveArgs invalid n) (directiveArgs invalid k) s fun _ _ => True := by
  induction n generalizing s k with
  | zero =>
    have hnil := List.eq_nil_of_length_eq_zero (Nat.le_zero.mp hn)
    exact ⟨by rw [directiveArgs_of_nil _ _ hnil, directiveArgs_of_nil _ _ hnil], trivial⟩
  | succ n ih =>
    cases k with
    | zero =>
      have hnil := List.eq_nil_of_length_eq_zero (Nat.le_zero.mp hk)
      exact ⟨by rw [directiveArgs_of_nil _ _ hnil, directiveArgs_of_nil _ _ hnil], trivial⟩
    | succ k =>
      simp only [directiveArgs, agree_get]
      split
      case isTrue => exact .self _ _
      case isFalse hline =>
        refine .after (Q := fun _ => Follows s) (when_passes (error_passes _ _ s)) fun _ s₁ h₁ => ?_
        refine .after (skip_moves s₁) fun _ s₂ h₂ => ?_
        have hlt := lt_of_moves h₁.suffix (atEnd_of_not_lineStart hline) h₂.1.length_le h₂.2
        exact (ih (by omega) (by omega)).bind fun _ _ _ => .self _ _

/-- What a bound leaves of a method is one round with a bound on the methods that the round asks for. -/
theorem bounded_eq_round {n : Nat} (m : Method α β) (a : α) (hn : m.depth a s ≤ n)
    (h : Settled (m.depth a s) s.rest) :
    ∃ k, n ≤ k + 1 ∧ (bounded n m a).run s = (round (bounded k) m a).run s := by
  have hsucc {m : Method α β} {a : α} (hpos : 0 < m.depth a s) (hn : m.depth a s ≤ n)
      (h : ∀ k, m.depth a s ≤ k + 1 → (bounded (k + 1) m a).run s = (round (bounded k) m a).run s) :
      ∃ k, n ≤ k + 1 ∧ (bounded n m a).run s = (round (bounded k) m a).run s := by
    obtain ⟨k, rfl⟩ := Nat.exists_eq_succ_of_ne_zero (Nat.ne_of_gt (Nat.lt_of_lt_of_le hpos hn))
    exact ⟨k, Nat.le_refl _, h k hn⟩
  have hpos {b : Prop} [Decidable b] {x y : Nat} (hx : 0 < x) (hy : 0 < y) :
      0 < 32 * s.rest.length + if b then x else y := by
    split <;> omega
  cases m with
  | segments => exact ⟨n, Nat.le_succ n, readSegments_eq_round n s⟩
  | skipWhile => exact ⟨n, Nat.le_succ n, skipWhile_eq_round a n s⟩
  | nameEnd => exact ⟨n, Nat.le_succ n, readNameEnd_eq_round a n s⟩
  | header => exact ⟨n, Nat.le_succ n, header_eq_round n s⟩
  | listItems =>
    refine hsucc (Nat.succ_pos _) hn fun k hk => ?_
    have hbelow := h.below hk (Nat.le_succ_of_le hk)
    exact sequenceItems_eq_round k fun s' hs => (hbelow.lower .expr () hs rfl).follows.map some
  | recordItems =>
    refine hsucc (Nat.succ_pos _) hn fun k hk => ?_
    have hbelow := h.below hk (Nat.le_succ_of_le hk)
    exact sequenceItems_eq_round k fun s' hs => (hbelow.lower .recordField () hs rfl).follows
  | decl =>
    refine hsucc (Nat.succ_pos _) hn fun k hk => ?_
    suffices heq : Agree (round (bounded k) .decl a) (decl (k + 1) a) s fun _ _ => True from heq.same
    simp only [round, decl, agree_get]
    refine Agree.bind (Q := fun _ _ => True) ?_ fun _ _ _ => .self _ _
    change 32 * s.rest.length + 12 ≤ k + 1 at hk
    generalize s.peek = token
    cases token with
    | directive raw =>
      have hle := (follows_advance s).length_le
      refine Agree.bind (Q := fun _ _ => True) ?_ fun _ _ _ => .self _ _
      refine agree_bump.mpr ((directiveArgs_agree _ ?_ ?_).bind fun _ _ _ => .self _ _)
      all_goals omega
    | keyword word => cases word <;> exact .self _ _
    | _ => exact .self _ _
  | conditional => exact hsucc (hpos (by simp) (by simp)) hn fun _ _ => rfl
  | parenthesised => exact hsucc (hpos (by simp) (by simp)) hn fun _ _ => rfl
  | simpleExpr => exact hsucc (hpos (by simp) (by simp)) hn fun _ _ => rfl
  | _ =>
    -- all others unfold to a round, with the bound as it is or lowered by one
    first
      | exact ⟨n, Nat.le_succ n, rfl⟩
      | exact hsucc (Nat.succ_pos _) hn fun _ _ => rfl

theorem settled (d : Nat) (rest : List LaidToken) : Settled d rest := by
  induction d generalizing rest with
  | zero => exact fun _ _ m a s _ hd => (Nat.not_lt_zero _ hd).elim
  | succ d ih =>
    intro α β m a s hs hd n n' hn hn'
    have hbelow : Settled (m.depth a s) s.rest := fun _ _ m' a' s' hs' hd' =>
      ih s.rest m' a' s' hs' (Nat.lt_of_lt_of_le hd' (Nat.le_of_lt_succ hd))
    obtain ⟨k, hk, heq⟩ := bounded_eq_round m a hn hbelow
    obtain ⟨k', hk', heq'⟩ := bounded_eq_round m a hn' hbelow
    have hround := round_agree m a (hbelow.below (Nat.le_trans hn hk) (Nat.le_trans hn' hk'))
    refine ⟨by rw [heq, heq', hround.same], ?_⟩
    rw [yields_run, heq]
    exact hround.yields

/-- The bound is never used up: a method does the same with every bound not below its depth. -/
theorem bounded_agree {n : Nat} (m : Method α β) (a : α) (hn : m.depth a s ≤ n) :
    Agree (unbounded m a) (bounded n m a) s fun _ => Advances (m.MustRead s) s := by
  have h := settled (m.depth a s + 1) s.rest m a s (List.suffix_refl _) (Nat.lt_succ_self _) _ n
    (Nat.le_refl _) hn
  exact ⟨h.same, h.yields⟩

theorem unbounded_eq_round (m : Method α β) (a : α) : unbounded m a = round unbounded m a := by
  funext s
  obtain ⟨k, hk, heq⟩ := bounded_eq_round m a (Nat.le_refl _) (settled (m.depth a s) s.rest)
  have hround := round_agree (M := bounded k) (N := unbounded) m a fun _ _ m' a' s' hs hd => by
    have hagree := bounded_agree (n := k) m' a' (Nat.le_of_lt_succ (Nat.lt_of_lt_of_le hd hk))
    refine ⟨hagree.same.symm, ?_⟩
    rw [yields_run, hagree.same]
    exact hagree.yields
  exact heq.trans hround.same.symm

theorem unbounded_advances (m : Method α β) (a : α) (s : ParserState) :
    (unbounded m a).Yields s fun _ => Advances (m.MustRead s) s :=
  (bounded_agree m a (Nat.le_refl _)).yields

theorem unbounded_unique {M : Oracle}
    (hM : ∀ ⦃α β : Type⦄ (m : Method α β) (a : α), M m a = round M m a) : M = unbounded := by
  have hagree (d : Nat) : ∀ rest, Below unbounded M d rest := by
    induction d with
    | zero => exact fun _ _ _ m a s _ hd => (Nat.not_lt_zero _ hd).elim
    | succ d ih =>
      intro rest α β m a s hs hd
      rw [hM, unbounded_eq_round]
      exact round_agree m a fun _ _ m' a' s' hs' hd' =>
        ih s.rest m' a' s' hs' (Nat.lt_of_lt_of_le hd' (Nat.le_of_lt_succ hd))
  funext α β m a s
  exact (hagree (m.depth a s + 1) s.rest m a s (List.suffix_refl _) (Nat.lt_succ_self _)).same

/-! Chains of calls -/

/-- A method in front of a state. -/
structure Call where
  {α β : Type}
  method : Method α β
  arg : α
  state : ParserState

namespace Call

variable {x y : Call}

/-- The round of `x` asks for `y`: with another answer to `y` alone the round comes to something else. -/
def Asks (x y : Call) : Prop :=
  ∃ M : Oracle,
    (∀ z : Call, z ≠ y →
      (M z.method z.arg).run z.state = (unbounded z.method z.arg).run z.state) ∧
    (round M x.method x.arg).run x.state ≠ (unbounded x.method x.arg).run x.state

def depth (x : Call) : Nat := x.method.depth x.arg x.state

theorem Asks.descends (h : x.Asks y) : y.state.rest <:+ x.state.rest ∧ y.depth < x.depth := by
  obtain ⟨M, hM, hne⟩ := h
  refine Classical.byContradiction fun hnot => hne ?_
  have hbelow : Below unbounded M x.depth x.state.rest := by
    intro α β m a s hs hd
    refine ⟨hM ⟨m, a, s⟩ fun heq => hnot ?_, unbounded_advances m a s⟩
    subst heq
    exact ⟨hs, hd⟩
  rw [(round_agree x.method x.arg hbelow).same, ← unbounded_eq_round]

theorem asks_descends (h : Relation.TransGen Asks x y) :
    y.state.rest <:+ x.state.rest ∧ y.depth < x.depth := by
  induction h with
  | single h => exact h.descends
  | tail _ h ih => exact ⟨h.descends.1.trans ih.1, Nat.lt_trans h.descends.2 ih.2⟩

/-- A round that ends with a call asks for it. -/
theorem asks_of_last {α α' β : Type} {m : Method α β} {m' : Method α' β} {a : α} {a' : α'}
    {s s' : ParserState} (h : ∀ M : Oracle, (round M m a).run s = (M m' a').run s') :
    Asks ⟨m, a, s⟩ ⟨m', a', s'⟩ := by
  classical
  let M : Oracle := fun _ _ n b t =>
    if (⟨n, b, t⟩ : Call) = ⟨m', a', s'⟩ then (((unbounded n b).run t).1, { t with size := t.size + 1 })
    else (unbounded n b).run t
  refine ⟨M, fun z hz => if_neg hz, ?_⟩
  rw [unbounded_eq_round]
  change (round M m a).run s ≠ (round unbounded m a).run s
  rw [h, h, show (M m' a').run s' = _ from if_pos rfl]
  intro heq
  obtain ⟨read, hread, -⟩ := (unbounded_advances m' a' s').follows
  have hsize : s'.size + 1 = ((unbounded m' a').run s').2.size := congrArg (·.2.size) heq
  rw [hread.size] at hsize
  exact Nat.succ_ne_self _ hsize

end Call

/-- Every method returns in every state with the cursor moved on over tokens of the file, and with the
column, the nesting and the earlier errors that it found; the bound on its recursion is never used up.
The methods are the one solution of the equations that their rounds make. Chains of calls end, and a
chain that comes back to a method has passed a token: it has read one, but for the search for the end
of a name, which only looks at it. -/
theorem methods_advance :
    (∀ ⦃α β : Type⦄ (m : Method α β) (a : α) (s : ParserState),
      (∃ read, Reads read s ((unbounded m a).run s).2) ∧
      (bounded (SyntaxFile.depthBound s.rest.length) m a).run s = (unbounded m a).run s) ∧
    (∀ M : Oracle, (∀ ⦃α β : Type⦄ (m : Method α β) (a : α), M m a = round M m a) ↔ M = unbounded) ∧
    WellFounded (fun y x : Call => x.Asks y) ∧
    (∀ ⦃α β : Type⦄ (m : Method α β) (a a' : α) (s s' : ParserState),
      Relation.TransGen Call.Asks ⟨m, a, s⟩ ⟨m, a', s'⟩ →
        s'.rest <:+ s.rest ∧ m.left a' s' < m.left a s) := by
  refine ⟨fun α β m a s => ⟨?frame, ?bound⟩, fun M => ⟨unbounded_unique, ?equations⟩, ?ends,
    fun α β m a a' s s' h => ?cycle⟩
  case frame =>
    obtain ⟨read, hread, -⟩ := (unbounded_advances m a s).follows
    exact ⟨read, hread⟩
  case bound => exact (bounded_agree m a (m.depth_le a s)).same
  case equations =>
    rintro rfl
    exact fun _ _ m a => unbounded_eq_round m a
  case ends =>
    exact Subrelation.wf (r := fun y x : Call => y.depth < x.depth) (fun h => h.descends.2)
      (InvImage.wf Call.depth Nat.lt_wfRel.wf)
  case cycle =>
    have hdesc := Call.asks_descends h
    exact ⟨hdesc.1, Method.left_lt hdesc.1 hdesc.2⟩

/-- The loop over the brackets behind a type goes round once for two brackets. -/
theorem array_brackets_advance :
    ∃ (t t' : TypeExpr) (s s' : ParserState),
      Relation.TransGen Call.Asks ⟨.typeSuffixes, t, s⟩ ⟨.typeSuffixes, t', s'⟩ ∧
        s'.rest.length < s.rest.length := by
  let opening : LaidToken := ⟨.punct .lbracket, ⟨3, 4⟩, 3, false⟩
  let closing : LaidToken := ⟨.punct .rbracket, ⟨4, 5⟩, 4, false⟩
  let t : TypeExpr := .error ⟨0, 3⟩
  let s : ParserState :=
    { rest := [opening, closing], size := 5, prevEnd := 3, kind := .script, errors := [] }
  have hasks : Call.Asks ⟨.typeSuffixes, t, s⟩ ⟨.typeSuffixes, .array ⟨0, 5⟩ t, s.advance.advance⟩ :=
    Call.asks_of_last fun M => rfl
  exact ⟨t, _, s, _, .single hasks, (methods_advance.2.2.2 .typeSuffixes _ _ _ _ (.single hasks)).2⟩

end Parser
end ScriptAnalyzer

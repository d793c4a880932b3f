import ScriptAnalyzer.Proofs.Syntax.Rereading

/-!
Operands in front of the parser of expressions. A printed operand is an atom or stands in parentheses, so it is read as
an atom, and the levels of the grammar around it only have to see that nothing continues it.
-/

namespace ScriptAnalyzer

namespace Parser

open ParserState
open Piece (next)

variable {s : ParserState} {before t : Token} {ps qs : List Piece} {e : Expr} {n : Nat}

/-! What may stand behind an expression -/

/-- Neither a member access nor a call follows. -/
def EndsAccess (qs : List Piece) : Prop := next qs ≠ .punct .dot ∧ qs.head? ≠ some .callParen

def endsApplication (t : Token) : Bool := !t.startsAtom && t != .punct .dot

def endsOperand (t : Token) : Bool := endsApplication t && (infixOperator? t).isNone

def endsExpr (t : Token) : Bool := endsOperand t && t != .punct .comma

/-- Tokens behind an expression without parentheses. -/
def endsWhole : Token → Bool
  | .eof | .punct .rparen => true
  | _ => false

theorem ne_comma_of_endsExpr (t : Token) (h : endsExpr t = true) : t ≠ .punct .comma :=
  bne_iff_ne.mp (Bool.and_eq_true_iff.mp h).2

theorem endsOperand_of_endsExpr (t : Token) (h : endsExpr t = true) : endsOperand t = true :=
  (Bool.and_eq_true_iff.mp h).1

theorem endsExpr_of_endsWhole (t : Token) (h : endsWhole t = true) : endsExpr t = true := by
  unfold endsWhole at h
  split at h
  case h_1 | h_2 => rfl
  case h_3 => cases h

theorem not_startsAtom (h : endsApplication t = true) : t.startsAtom = false :=
  (Bool.not_eq_true' _).mp (Bool.and_eq_true_iff.mp h).1

theorem endsAccess_of_endsApplication (h : endsApplication (next qs) = true) : EndsAccess qs := by
  obtain ⟨hatom, hdot⟩ := Bool.and_eq_true_iff.mp h
  refine ⟨bne_iff_ne.mp hdot, fun hcall => ?_⟩
  rw [next, hcall] at hatom
  cases hatom

theorem endsAccess_of_startsAtom {t : Token} (h : t.startsAtom = true) : EndsAccess (.word t :: qs) := by
  refine ⟨?_, nofun⟩
  rintro (rfl : t = _)
  cases h

/-- The parser finds the expression `e` in the pieces if a token of the kind `ends` stands behind. -/
def Finds (f : Parser Expr) (ps : List Piece) (ends : Token → Bool) (e : Expr) : Prop :=
  f.Rereads ps (fun qs => ends (next qs) = true) fun r _ => r.shape = e.shape

/-- The parser finds an operand, whatever stands behind, and the operand ends with the pieces. -/
def FindsAtom (f : Parser Expr) (ps : List Piece) (e : Expr) : Prop :=
  f.Rereads ps (fun _ => True) fun r place => r.shape = e.shape ∧ r.span.stop = place

/-! From one level of the grammar to the next -/

theorem accesses_stop (n : Nat) (target : Expr) (hs : s.Leaves qs) (hqs : EndsAccess qs)
    (hstop : target.span.stop = s.prevEnd) (Q : Expr → ParserState → Prop) :
    (accesses n target).Yields s Q ↔ Q target s := by
  cases n with
  | zero => exact Iff.rfl
  | succ n =>
    obtain ⟨hdot, hcall⟩ := hqs
    simp only [accesses, yields_bind, yields_get]
    rw [← (show s.peek = next qs from hs.peek)] at hdot
    split
    case h_1 hpeek => exact absurd hpeek hdot
    case h_2 hpeek =>
      rw [hs.peek] at hpeek
      cases qs with
      | nil => cases hpeek
      | cons p qs =>
        cases p with
        | callParen => exact absurd rfl hcall
        | elementBracket => cases hpeek
        | word t =>
          obtain rfl : t = .punct .lparen := hpeek
          obtain ⟨b, hb, hs⟩ := hs
          have hspaced : (Piece.word (.punct .lparen)).spaced b = true := by
            rw [Piece.spaced, Bool.eq_false_iff.mpr (mt Piece.adjoins_opens (Bool.eq_false_iff.mp hb))]
            rfl
          have hstart : s.current.span.start ≠ target.span.stop := by
            rw [hs.start, if_pos hspaced, hstop]
            exact Nat.succ_ne_self _
          rw [if_pos (by simp [hstart])]
          exact Iff.rfl
    case h_3 => exact Iff.rfl

theorem accesses_end (n : Nat) (target : Expr) (h : endsApplication s.peek = true) (Q : Expr → ParserState → Prop) :
    (accesses n target).Yields s Q ↔ Q target s := by
  cases n with
  | zero => exact Iff.rfl
  | succ n =>
    simp only [accesses, yields_bind, yields_get]
    generalize s.peek = t at h
    split
    case h_1 | h_2 => cases h
    case h_3 => exact Iff.rfl

theorem accessed_rereads (h : FindsAtom (atom n) ps e) :
    (accessed (n + 1)).Rereads ps EndsAccess fun r _ => r.shape = e.shape := by
  intro before qs s hqs hs
  simp only [accessed, yields_bind]
  refine (h before qs s trivial hs).mono fun r s' ⟨hs', hr, hstop⟩ => ?_
  exact (accesses_stop _ _ hs' hqs hstop _).mpr ⟨hs', hr⟩

theorem arguments_stop (n : Nat) (function : Expr) (h : s.peek.startsAtom = false)
    (Q : Expr → ParserState → Prop) : (arguments n function).Yields s Q ↔ Q function s := by
  cases n with
  | zero => exact Iff.rfl
  | succ n =>
    simp only [arguments, yields_bind, yields_get, h, Bool.false_and, Bool.false_eq_true, if_false]
    exact Iff.rfl

theorem unary_finds (hstart : ∀ qs, next (ps ++ qs) ≠ .operator .minus)
    (h : Finds (accessed n) ps endsApplication e) : Finds (unary (n + 1)) ps endsApplication e := by
  intro before qs s hqs hs
  have hminus : s.peek ≠ .operator .minus := hs.peek ▸ hstart qs
  simp only [unary, yields_bind, yields_get, hminus, decide_false, Bool.false_and, Bool.false_eq_true, if_false]
  refine (h before qs s hqs hs).mono fun r s' ⟨hs', hr⟩ => ?_
  exact (arguments_stop _ _ (hs'.peek ▸ not_startsAtom hqs) _).mpr ⟨hs', hr⟩

theorem operations_stop (n power : Nat) (lhs : Expr) (h : infixOperator? s.peek = none)
    (Q : Expr → ParserState → Prop) : (operations n power lhs).Yields s Q ↔ Q lhs s := by
  cases n with
  | zero => exact Iff.rfl
  | succ n =>
    simp only [operations, yields_bind, yields_get, h]
    exact Iff.rfl

theorem operand_finds (h : Finds (unary n) ps endsApplication e) (power : Nat) :
    Finds (operand (n + 1) power) ps endsOperand e := by
  intro before qs s hqs hs
  obtain ⟨happ, hnone⟩ := Bool.and_eq_true_iff.mp hqs
  simp only [operand, yields_bind]
  refine (h before qs s happ hs).mono fun r s' ⟨hs', hr⟩ => ?_
  have hinfix : infixOperator? s'.peek = none := by
    rw [hs'.peek]
    exact Option.isNone_iff_eq_none.mp hnone
  exact (operations_stop _ _ _ hinfix _).mpr ⟨hs', hr⟩

theorem simpleExpr_finds (hstart : ∀ qs, startsOpenExpr (next (ps ++ qs)) = false)
    (h : Finds (operand n 0) ps endsOperand e) : Finds (simpleExpr (n + 1)) ps endsOperand e := by
  intro before qs s hqs hs
  have hplain : startsOpenExpr s.peek = false := hs.peek ▸ hstart qs
  simp only [simpleExpr, yields_bind, yields_get]
  generalize s.peek = t at hplain
  split
  case h_4 => exact h before qs s hqs hs
  all_goals cases hplain

theorem tupleItems_stop (n : Nat) (h : s.peek ≠ .punct .comma) (Q : List Expr → ParserState → Prop) :
    (tupleItems n).Yields s Q ↔ Q [] s := by
  cases n with
  | zero => exact Iff.rfl
  | succ n =>
    simp only [tupleItems, yields_bind, yields_get, h, decide_false, Bool.false_and, Bool.false_eq_true, if_false]
    exact Iff.rfl

theorem Finds.mono {f : Parser Expr} {ends ends' : Token → Bool} (h : Finds f ps ends e)
    (hends : ∀ t, ends' t = true → ends t = true) : Finds f ps ends' e :=
  Rereads.mono h (fun _ => hends _) fun _ _ => id

theorem expr_finds {ends : Token → Bool} (hends : ∀ t, ends t = true → t ≠ .punct .comma)
    (h : Finds (simpleExpr n) ps ends e) : Finds (expr (n + 1)) ps ends e := by
  intro before qs s hqs hs
  simp only [expr, yields_bind]
  refine (h before qs s hqs hs).mono fun r s' ⟨hs', hr⟩ => ?_
  exact (tupleItems_stop _ (hs'.peek ▸ hends _ hqs) _).mpr ⟨hs', hr⟩

theorem body_finds {p : Piece} {ends : Token → Bool} (h : Finds (expr n) (p :: ps) ends e) :
    Finds (body (n + 1)) (p :: ps) ends e := by
  intro before qs s hqs hs
  simp only [body, yields_bind, yields_get, hs.atEnd, hs.lineStart, Bool.false_and, Bool.or_self, Bool.false_eq_true,
    if_false]
  exact h before qs s hqs hs

/-! Expressions whose operands are found -/

/-- The expression is found as an operand, for every bound on the recursion that is large enough. -/
structure OperandFound (e : Expr) : Prop where
  start : ∃ t ps, e.operand = .word t :: ps ∧ t.startsAtom = true
  operand : ∀ n, 8 * e.operand.length ≤ n → FindsAtom (atom n) e.operand e

/-- The expression is found as an operand and by itself. -/
structure ExprFound (e : Expr) : Prop extends OperandFound e where
  whole : ∀ n, 8 * e.pieces.length + 8 ≤ n → Finds (expr n) e.pieces endsWhole e

namespace OperandFound

theorem next_startsAtom (h : OperandFound e) (qs : List Piece) : (next (e.operand ++ qs)).startsAtom = true := by
  obtain ⟨t, ps, hps, ht⟩ := h.start
  rw [hps]
  exact ht

theorem next_ne (h : OperandFound e) (ht : t.startsAtom = false) (qs : List Piece) : next (e.operand ++ qs) ≠ t := by
  intro hnext
  rw [← hnext, h.next_startsAtom] at ht
  cases ht

theorem length_pos (h : OperandFound e) : 0 < e.operand.length := by
  obtain ⟨t, ps, hps, -⟩ := h.start
  rw [hps]
  exact Nat.succ_pos _

theorem isOffside (h : OperandFound e) (hs : s.Faces before (e.operand ++ qs)) : s.isOffside = false := by
  obtain ⟨t, ps, hps, -⟩ := h.start
  rw [hps] at hs
  exact hs.isOffside

theorem not_open (h : OperandFound e) (qs : List Piece) : startsOpenExpr (next (e.operand ++ qs)) = false := by
  have hatom := h.next_startsAtom qs
  generalize next (e.operand ++ qs) = t at hatom
  unfold startsOpenExpr
  split
  all_goals first | rfl | cases hatom

theorem accessed (h : OperandFound e) (hn : 8 * e.operand.length < n) :
    (accessed n).Rereads e.operand EndsAccess fun r _ => r.shape = e.shape := by
  obtain ⟨n, rfl⟩ : ∃ m, n = m + 1 := ⟨n - 1, by omega⟩
  exact accessed_rereads (h.operand n (by omega))

theorem unary (h : OperandFound e) (hn : 8 * e.operand.length + 1 < n) :
    Finds (unary n) e.operand endsApplication e := by
  obtain ⟨n, rfl⟩ : ∃ m, n = m + 1 := ⟨n - 1, by omega⟩
  refine unary_finds (fun qs => h.next_ne rfl qs) ?_
  exact (h.accessed (by omega)).mono (fun _ => endsAccess_of_endsApplication) fun _ _ => id

theorem infixed (h : OperandFound e) (hn : 8 * e.operand.length + 2 < n) (power : Nat) :
    Finds (Parser.operand n power) e.operand endsOperand e := by
  obtain ⟨n, rfl⟩ : ∃ m, n = m + 1 := ⟨n - 1, by omega⟩
  exact operand_finds (h.unary (by omega)) power

theorem simple (h : OperandFound e) (hn : 8 * e.operand.length + 3 < n) :
    Finds (simpleExpr n) e.operand endsOperand e := by
  obtain ⟨n, rfl⟩ : ∃ m, n = m + 1 := ⟨n - 1, by omega⟩
  exact simpleExpr_finds h.not_open (h.infixed (by omega) 0)

theorem expr (h : OperandFound e) (hn : 8 * e.operand.length + 4 < n) : Finds (expr n) e.operand endsExpr e := by
  obtain ⟨n, rfl⟩ : ∃ m, n = m + 1 := ⟨n - 1, by omega⟩
  exact expr_finds ne_comma_of_endsExpr ((h.simple (by omega)).mono endsOperand_of_endsExpr)

theorem body (h : OperandFound e) (hn : 8 * e.operand.length + 5 < n) : Finds (body n) e.operand endsExpr e := by
  obtain ⟨n, rfl⟩ : ∃ m, n = m + 1 := ⟨n - 1, by omega⟩
  have hexpr := h.expr (n := n) (by omega)
  obtain ⟨t, ps, hps, -⟩ := h.start
  rw [hps] at hexpr ⊢
  exact body_finds hexpr

end OperandFound

/-! Whole expressions, by the level of the grammar they are read at -/

theorem found_of_atom (hstart : ∃ t ps, e.operand = .word t :: ps ∧ t.startsAtom = true) (hatomic : e.isAtomic = true)
    (h : ∀ n, 8 * e.pieces.length ≤ n → FindsAtom (atom n) e.pieces e) : ExprFound e := by
  have hpieces : e.operand = e.pieces := if_pos hatomic
  rw [← hpieces] at h
  refine ⟨⟨hstart, h⟩, fun n hn => ?_⟩
  rw [← hpieces] at hn ⊢
  exact (OperandFound.expr ⟨hstart, h⟩ (by omega)).mono endsExpr_of_endsWhole

theorem parenthesised_rereads (hstart : ∀ qs, next (ps ++ qs) ≠ .punct .rparen)
    (h : (annotated n).Rereads ps (fun qs => next qs = .punct .rparen) fun r _ => r.shape = e.shape) :
    FindsAtom (atom (n + 2)) (Piece.enclosed ps) e := by
  intro before qs s _ hs
  rw [Piece.enclosed, List.cons_append, List.append_assoc, List.singleton_append] at hs
  have hopen : s.current.token = .punct .lparen := hs.current_token
  have hnone : s.advance.peek ≠ .punct .rparen := hs.advance.peek ▸ hstart _
  simp only [atom, yields_bind, yields_get, hs.isOffside, Bool.false_eq_true, if_false, hopen, parenthesised, yields_bump,
    yields_eat_none hnone]
  refine (nested_rereads h _ _ _ rfl hs.advance).mono fun r s' h' => ?_
  obtain ⟨⟨b, hb, hs'⟩, hr⟩ := h'
  refine (yields_closing hs'.peek _ _).mpr ⟨hs'.advance.leaves rfl, hr, ?_⟩
  exact hs'.prevEnd.symm

theorem annotated_rereads (h : Finds (expr n) ps endsWhole e) :
    (annotated (n + 1)).Rereads ps (fun qs => next qs = .punct .rparen) fun r _ => r.shape = e.shape := by
  intro before qs s hqs hs
  have hends : endsWhole (next qs) = true := by
    rw [hqs]
    rfl
  simp only [annotated, yields_bind, yields_get]
  refine (h before qs s hends hs).mono fun r s' ⟨hs', hr⟩ => ?_
  have hcolon : s'.peek ≠ .punct .colon := by
    rw [hs'.peek, hqs]
    exact nofun
  simp only [hcolon, decide_false, Bool.false_and, Bool.false_eq_true, if_false]
  exact ⟨hs', hr⟩

/-- A compound expression is found in parentheses if it is found by itself. -/
theorem found_of_whole (hatomic : e.isAtomic = false) (hstart : ∀ qs, next (e.pieces ++ qs) ≠ .punct .rparen)
    (h : ∀ n, 8 * e.pieces.length + 8 ≤ n → Finds (expr n) e.pieces endsWhole e) : ExprFound e := by
  have hpieces : e.operand = Piece.enclosed e.pieces := if_neg (by simp [hatomic])
  refine ⟨⟨⟨_, _, hpieces, rfl⟩, fun n hn => ?_⟩, h⟩
  rw [hpieces, Piece.enclosed, List.length_cons, List.length_append, List.length_singleton] at hn
  rw [hpieces]
  obtain ⟨n, rfl⟩ : ∃ m, n = m + 3 := ⟨n - 3, by omega⟩
  exact parenthesised_rereads hstart (annotated_rereads (h n (by omega)))

/-! Literals and names -/

theorem digitsValue_ofNat (value : Nat) : Binary64.digitsValue (Nat.toDigits 10 value) = value :=
  Nat.ofDigitChars_toDigits (by decide) (by decide)

/-- An expression of one token. -/
theorem found_of_token (hatomic : e.isAtomic = true) (hpieces : e.pieces = [.word t]) (hstart : t.startsAtom = true)
    (hopens : Token.opens t = false)
    (h : ∀ n s, s.isOffside = false → s.current.token = t → (atom (n + 1)).Yields s fun r s' =>
      r.shape = e.shape ∧ r.span = s.current.span ∧ s' = s.advance) : ExprFound e := by
  refine found_of_atom ⟨t, [], (if_pos hatomic).trans hpieces, hstart⟩ hatomic fun n hn => ?_
  rw [hpieces, List.length_singleton] at hn
  rw [hpieces]
  obtain ⟨n, rfl⟩ : ∃ m, n = m + 1 := ⟨n - 1, by omega⟩
  intro before qs s _ hs
  refine (h n s hs.isOffside hs.current_token).mono fun r s' ⟨hr, hspan, hs'⟩ => ?_
  subst hs'
  exact ⟨hs.advance.leaves hopens, hr, by rw [hspan, hs.prevEnd]⟩

theorem exprFound_ident (name : Ident) : ExprFound (.ident name) := by
  refine found_of_token rfl rfl rfl rfl fun n s hplain htoken => ?_
  simp only [atom, yields_bind, yields_get, hplain, Bool.false_eq_true, if_false, htoken, yields_skip]
  exact ⟨rfl, rfl, rfl⟩

theorem exprFound_literal {span : Span} {v : Literal} (hv : v.IsExact) : ExprFound (.literal span v) := by
  cases v with
  | float => exact hv.elim
  | int value =>
    have hvalue : Binary64.digitsValue (String.ofList (Nat.toDigits 10 value)).toList = value := by
      rw [String.toList_ofList, digitsValue_ofNat]
    have hle : value ≤ maxInt := hv
    refine found_of_token rfl rfl rfl rfl fun n s hplain htoken => ?_
    simp only [atom, yields_bind, yields_get, hplain, Bool.false_eq_true, if_false, htoken, Token.ofNat, literal?, hvalue,
      if_pos hle, yields_pure, yields_skip]
    exact ⟨rfl, rfl, trivial⟩
  | string value =>
    have hvalue : String.ofList (Literal.unquote (String.ofList ('"' :: value.toList.flatMap Literal.escape ++ ['"'])).toList) =
        value := by
      rw [String.toList_ofList, Literal.unquote_quoted, Literal.decode_flatMap, String.ofList_toList]
    refine found_of_token rfl rfl rfl rfl fun n s hplain htoken => ?_
    simp only [atom, yields_bind, yields_get, hplain, Bool.false_eq_true, if_false, htoken, Token.ofString, literal?, hvalue,
      yields_pure, yields_skip]
    exact ⟨rfl, rfl, trivial⟩
  | char value =>
    have hvalue : (Literal.unquote (String.ofList ('\'' :: Literal.escape value ++ ['\''])).toList).headD '\x00' = value := by
      have hdecode := Literal.decode_escape value []
      rw [List.append_nil] at hdecode
      rw [String.toList_ofList, Literal.unquote_quoted, hdecode]
      rfl
    refine found_of_token rfl rfl rfl rfl fun n s hplain htoken => ?_
    simp only [atom, yields_bind, yields_get, hplain, Bool.false_eq_true, if_false, htoken, Token.ofChar, literal?, hvalue,
      yields_pure, yields_skip]
    exact ⟨rfl, rfl, trivial⟩
  | bool value =>
    refine found_of_token rfl rfl (by cases value <;> rfl) (by cases value <;> rfl) fun n s hplain htoken => ?_
    cases value
    all_goals
      simp only [atom, yields_bind, yields_get, hplain, Bool.false_eq_true, if_false, if_true, htoken, literal?,
        yields_pure, yields_skip]
      exact ⟨rfl, rfl, trivial⟩
  | unit =>
    refine found_of_atom ⟨_, _, rfl, rfl⟩ rfl fun n hn => ?_
    obtain ⟨n, rfl⟩ : ∃ m, n = m + 2 := ⟨n - 2, Nat.eq_add_of_sub_eq (Nat.le_trans (by decide : 2 ≤ 8 * 2) hn) rfl⟩
    intro before qs s _ hs
    have hs : s.Faces before (.punct .lparen :: .punct .rparen :: qs) := hs
    have htoken : s.current.token = .punct .lparen := hs.current_token
    have hpeek : s.advance.peek = .punct .rparen := hs.advance.peek
    simp only [atom, yields_bind, yields_get, hs.isOffside, Bool.false_eq_true, if_false, htoken, parenthesised,
      yields_bump, yields_eat_some hpeek]
    exact ⟨hs.advance.advance.leaves rfl, rfl, (Nat.max_eq_right hs.stop_le).trans hs.advance.prevEnd.symm⟩

/-! Operators, applications and accesses -/

theorem found_of_operand (hatomic : e.isAtomic = false) (hstart : ∀ qs, next (e.pieces ++ qs) ≠ .punct .rparen)
    (hplain : ∀ qs, startsOpenExpr (next (e.pieces ++ qs)) = false)
    (h : ∀ n, 8 * e.pieces.length + 6 ≤ n → Finds (operand n 0) e.pieces endsOperand e) : ExprFound e := by
  refine found_of_whole hatomic hstart fun n hn => ?_
  obtain ⟨n, rfl⟩ : ∃ m, n = m + 2 := ⟨n - 2, by omega⟩
  have hsimple := (simpleExpr_finds hplain (h n (by omega))).mono endsOperand_of_endsExpr
  exact (expr_finds ne_comma_of_endsExpr hsimple).mono endsExpr_of_endsWhole

theorem found_of_unary (hatomic : e.isAtomic = false) (hstart : ∀ qs, next (e.pieces ++ qs) ≠ .punct .rparen)
    (hplain : ∀ qs, startsOpenExpr (next (e.pieces ++ qs)) = false)
    (h : ∀ n, 8 * e.pieces.length + 5 ≤ n → Finds (unary n) e.pieces endsApplication e) : ExprFound e := by
  refine found_of_operand hatomic hstart hplain fun n hn => ?_
  obtain ⟨n, rfl⟩ : ∃ m, n = m + 1 := ⟨n - 1, by omega⟩
  exact operand_finds (h n (by omega)) 0

variable {f a : Expr}

theorem exprFound_app {span : Span} (hf : OperandFound f) (ha : OperandFound a) : ExprFound (.app span f a) := by
  have hlength : (Expr.app span f a).pieces.length = f.operand.length + a.operand.length := List.length_append
  have hpieces : ∀ qs, (Expr.app span f a).pieces ++ qs = f.operand ++ (a.operand ++ qs) := List.append_assoc _ _
  refine found_of_unary rfl (fun qs => hpieces qs ▸ hf.next_ne rfl _) (fun qs => hpieces qs ▸ hf.not_open _) fun n hn => ?_
  obtain ⟨n, rfl⟩ : ∃ m, n = m + 2 := ⟨n - 2, by omega⟩
  intro before qs s hqs hs
  rw [hpieces] at hs
  have hminus : s.peek ≠ .operator .minus := hs.peek ▸ hf.next_ne rfl _
  have hargument : EndsAccess (a.operand ++ qs) := by
    obtain ⟨t, ps, hps, ht⟩ := ha.start
    rw [hps]
    exact endsAccess_of_startsAtom ht
  simp only [unary, yields_bind, yields_get, hminus, decide_false, Bool.false_and, Bool.false_eq_true, if_false]
  refine (hf.accessed (by omega) _ _ s hargument hs).mono fun r s' ⟨⟨b, hb, hs'⟩, hr⟩ => ?_
  have hatom : s'.peek.startsAtom = true := hs'.peek ▸ ha.next_startsAtom qs
  have hplain : s'.isOffside = false := ha.isOffside hs'
  simp only [arguments, yields_bind, yields_get, hatom, hplain, Bool.not_false, Bool.and_self, if_true]
  have hends := endsAccess_of_endsApplication hqs
  refine (ha.accessed (by omega) _ _ s' hends hs').mono fun r' s'' ⟨hs'', hr'⟩ => ?_
  refine (arguments_stop _ _ ?_ _).mpr ⟨hs'', congrArg₂ (Expr.app (.empty 0)) hr hr'⟩
  exact hs''.peek ▸ not_startsAtom hqs

theorem exprFound_neg {span : Span} (h : OperandFound e) : ExprFound (.neg span e) := by
  have hlength : (Expr.neg span e).pieces.length = e.operand.length + 1 := rfl
  refine found_of_unary rfl (fun _ => nofun) (fun _ => rfl) fun n hn => ?_
  obtain ⟨n, rfl⟩ : ∃ m, n = m + 1 := ⟨n - 1, by omega⟩
  intro before qs s hqs hs
  have hs : s.Faces before (.operator .minus :: (e.operand ++ qs)) := hs
  have hpeek : s.peek = .operator .minus := hs.peek
  simp only [unary, yields_bind, yields_get, hpeek, hs.isOffside, decide_true, Bool.not_false, Bool.and_self, if_true,
    yields_bump]
  refine (h.unary (by omega) _ _ _ hqs hs.advance).mono fun r s' ⟨hs', hr⟩ => ⟨hs', ?_⟩
  exact congrArg (Expr.neg (.empty 0)) hr

theorem infixOperator?_operator (op : BinaryOp) :
    ∃ left right, infixOperator? (.operator op.operator) = some (op, left, right) := by
  cases op
  all_goals exact ⟨_, _, rfl⟩

theorem exprFound_binary {span opSpan : Span} {op : BinaryOp} (hf : OperandFound f) (ha : OperandFound a) :
    ExprFound (.binary span op opSpan f a) := by
  have hlength : (Expr.binary span op opSpan f a).pieces.length = f.operand.length + (a.operand.length + 1) :=
    List.length_append
  have hpieces : ∀ qs, (Expr.binary span op opSpan f a).pieces ++ qs =
      f.operand ++ (.operator op.operator :: (a.operand ++ qs)) := List.append_assoc _ _
  refine found_of_operand rfl (fun qs => hpieces qs ▸ hf.next_ne rfl _) (fun qs => hpieces qs ▸ hf.not_open _)
    fun n hn => ?_
  obtain ⟨n, rfl⟩ : ∃ m, n = m + 2 := ⟨n - 2, by omega⟩
  intro before qs s hqs hs
  rw [hpieces] at hs
  obtain ⟨left, right, hinfix⟩ := infixOperator?_operator op
  simp only [operand, yields_bind]
  refine (hf.unary (by omega) _ _ s ?_ hs).mono fun r s' ⟨⟨b, hb, hs'⟩, hr⟩ => ?_
  · cases op <;> rfl
  · have hpeek : s'.peek = .operator op.operator := hs'.peek
    have hopen : startsOpenExpr s'.advance.peek = false := hs'.advance.peek ▸ ha.not_open qs
    simp only [operations, yields_bind, yields_get, hpeek, hinfix, Nat.not_lt_zero, decide_false, hs'.isOffside,
      Bool.or_self, Bool.false_eq_true, if_false, yields_bump, rightOperand, hopen]
    refine (ha.infixed (by omega) right _ _ _ hqs hs'.advance).mono fun r' s'' ⟨hs'', hr'⟩ => ?_
    refine (operations_stop _ _ _ ?_ _).mpr ⟨hs'', congrArg₂ (Expr.binary (.empty 0) op (.empty 0)) hr hr'⟩
    rw [hs''.peek]
    exact Option.isNone_iff_eq_none.mp (Bool.and_eq_true_iff.mp hqs).2

theorem found_of_accessed (hatomic : e.isAtomic = false) (hstart : ∀ qs, (next (e.pieces ++ qs)).startsAtom = true)
    (hplain : ∀ qs, startsOpenExpr (next (e.pieces ++ qs)) = false)
    (h : ∀ n, 8 * e.pieces.length + 4 ≤ n → Finds (accessed n) e.pieces endsApplication e) : ExprFound e := by
  have hne : ∀ {t : Token} (qs), t.startsAtom = false → next (e.pieces ++ qs) ≠ t := by
    rintro _ qs ht rfl
    rw [hstart qs] at ht
    cases ht
  refine found_of_unary hatomic (fun qs => hne qs rfl) hplain fun n hn => ?_
  obtain ⟨n, rfl⟩ : ∃ m, n = m + 1 := ⟨n - 1, by omega⟩
  exact unary_finds (fun qs => hne qs rfl) (h n (by omega))

theorem exprFound_member {span dot : Span} {name : Ident} (h : OperandFound e) :
    ExprFound (.member span e dot (some name)) := by
  have hlength : (Expr.member span e dot (some name)).pieces.length = e.operand.length + 2 := List.length_append
  have hpieces : ∀ qs, (Expr.member span e dot (some name)).pieces ++ qs =
      e.operand ++ (.punct .dot :: .ident name.text :: qs) := List.append_assoc _ _
  refine found_of_accessed rfl (fun qs => hpieces qs ▸ h.next_startsAtom _) (fun qs => hpieces qs ▸ h.not_open _)
    fun n hn => ?_
  obtain ⟨n, rfl⟩ : ∃ m, n = m + 2 := ⟨n - 2, by omega⟩
  intro before qs s hqs hs
  rw [hpieces] at hs
  simp only [accessed, yields_bind]
  refine (h.operand _ (by omega) _ _ s trivial hs).mono fun r s' ⟨⟨b, hb, hs'⟩, hr, _⟩ => ?_
  have hpeek : s'.peek = .punct .dot := hs'.peek
  have hname : s'.advance.peek = .ident name.text := hs'.advance.peek
  simp only [accesses, yields_bind, yields_get, hpeek, hs'.isOffside, Bool.false_eq_true, if_false, yields_bump,
    memberName?, hs'.advance.isOffside, yields_ident? hname]
  have hends : endsApplication s'.advance.advance.peek = true := hs'.advance.advance.peek ▸ hqs
  refine (accesses_end _ _ hends _).mpr ⟨hs'.advance.advance.leaves rfl, ?_⟩
  exact congrArg (Expr.member (.empty 0) · (.empty 0) (some name.unplaced)) hr

/-- Pieces of arguments up to the closing parenthesis. -/
theorem callArguments_rereads {args : List Expr} (hargs : ∀ a ∈ args, OperandFound a) (n : Nat)
    (hn : 8 * ([Piece.punct .comma].intercalate (args.map Expr.operand)).length + 4 < n) :
    (callArguments n).Rereads ([Piece.punct .comma].intercalate (args.map Expr.operand) ++ [.punct .rparen])
      (fun _ => True) fun r _ => r.1.map Expr.shape = args.map Expr.shape ∧ r.2.isSome = true := by
  induction args generalizing n with
  | nil =>
    intro before qs s _ hs
    have hs : s.Faces before (.punct .rparen :: qs) := hs
    have hpeek : s.peek = .punct .rparen := hs.peek
    obtain ⟨n, rfl⟩ : ∃ m, n = m + 1 := ⟨n - 1, by omega⟩
    simp only [callArguments, yields_bind, yields_eat_some hpeek]
    exact ⟨hs.advance.leaves rfl, rfl, rfl⟩
  | cons a args ih =>
    obtain ⟨ha, hargs⟩ := List.forall_mem_cons.mp hargs
    obtain ⟨n, rfl⟩ : ∃ m, n = m + 1 := ⟨n - 1, by omega⟩
    have hpos := ha.length_pos
    intro before qs s _ hs
    rw [List.map_cons] at hn hs
    cases args with
    | nil =>
      rw [List.map_nil, List.intercalate_singleton] at hn hs
      rw [List.append_assoc, List.singleton_append] at hs
      have hnone : s.peek ≠ .punct .rparen := hs.peek ▸ ha.next_ne rfl _
      have hplain : s.isOffside = false := ha.isOffside hs
      simp only [callArguments, yields_bind, yields_eat_none hnone, yields_get, hplain, Bool.false_eq_true, if_false]
      refine (ha.simple (by omega) _ _ s rfl hs).mono fun r s' ⟨⟨b, hb, hs'⟩, hr⟩ => ?_
      have hpeek : s'.peek = .punct .rparen := hs'.peek
      have hcomma : s'.peek ≠ .punct .comma := hpeek ▸ nofun
      have hlength : s'.rest.length ≠ s.rest.length := by
        rw [hs.length, hs'.length, List.length_append]
        omega
      simp only [yields_eat_none hcomma, yields_bind, yields_get, hlength, hpeek, decide_false, ne_eq, not_true_eq_false,
        Bool.or_self, Bool.false_eq_true, if_false]
      have hnil : 8 * ([Piece.punct .comma].intercalate []).length + 4 < n := by
        rw [List.intercalate_nil, List.length_nil]
        omega
      refine (ih hargs n hnil _ qs s' trivial hs').mono fun rs s'' ⟨hs'', hrs, hclose⟩ => ?_
      exact ⟨hs'', congrArg₂ List.cons hr hrs, hclose⟩
    | cons a' args =>
      rw [List.map_cons, List.intercalate_cons_cons, List.append_assoc, List.append_assoc, List.append_assoc] at hs
      rw [List.map_cons, List.intercalate_cons_cons, List.length_append, List.length_append, List.length_singleton] at hn
      have hnone : s.peek ≠ .punct .rparen := hs.peek ▸ ha.next_ne rfl _
      have hplain : s.isOffside = false := ha.isOffside hs
      simp only [callArguments, yields_bind, yields_eat_none hnone, yields_get, hplain, Bool.false_eq_true, if_false]
      refine (ha.simple (by omega) _ _ s rfl hs).mono fun r s' ⟨⟨b, hb, hs'⟩, hr⟩ => ?_
      have hpeek : s'.peek = .punct .comma := hs'.peek
      have hs' := hs'.advance
      simp only [yields_eat_some hpeek, yields_bind]
      rw [← List.map_cons, ← List.append_assoc] at hs'
      rw [← List.map_cons] at hn
      refine (ih hargs n (by omega) _ qs s'.advance trivial hs').mono fun rs s'' ⟨hs'', hrs, hclose⟩ => ?_
      exact ⟨hs'', congrArg₂ List.cons hr hrs, hclose⟩

theorem exprFound_call {span parens : Span} {args : List Expr} (hf : OperandFound f)
    (hargs : ∀ a ∈ args, OperandFound a) : ExprFound (.call span f args parens) := by
  have hpieces : ∀ qs, (Expr.call span f args parens).pieces ++ qs = f.operand ++
      (.callParen :: ([Piece.punct .comma].intercalate (args.map Expr.operand) ++ [.punct .rparen] ++ qs)) := by
    intro qs
    rw [Expr.pieces, Expr.operands_eq, List.append_assoc, List.cons_append]
    rfl
  have hlength := congrArg List.length (hpieces [])
  rw [List.append_nil, List.append_nil, List.length_append, List.length_cons, List.length_append] at hlength
  refine found_of_accessed rfl (fun qs => hpieces qs ▸ hf.next_startsAtom _) (fun qs => hpieces qs ▸ hf.not_open _)
    fun n hn => ?_
  obtain ⟨n, rfl⟩ : ∃ m, n = m + 2 := ⟨n - 2, by omega⟩
  intro before qs s hqs hs
  rw [hpieces] at hs
  simp only [accessed, yields_bind]
  refine (hf.operand _ (by omega) _ _ s trivial hs).mono fun r s' h' => ?_
  obtain ⟨⟨b, hb, hs'⟩, hr, hstop⟩ := h'
  have hpeek : s'.peek = .punct .lparen := hs'.peek
  have hstart : s'.current.span.start = r.span.stop := hs'.start.trans hstop.symm
  simp only [accesses, yields_bind, yields_get, hpeek, hs'.lineStart, hstart, ne_eq, not_true_eq_false, decide_false,
    Bool.or_self, Bool.false_eq_true, if_false, yields_bump]
  have hread := nested_rereads (callArguments_rereads hargs n (by omega))
  refine (hread _ qs _ trivial hs'.advance).mono fun result s'' h'' => ?_
  obtain ⟨rs, close⟩ := result
  obtain ⟨hs'', hrs, hclose⟩ := h''
  obtain ⟨stop, rfl⟩ := Option.isSome_iff_exists.mp hclose
  have hends : endsApplication s''.peek = true := hs''.peek ▸ hqs
  simp only [parentheses, yields_pure]
  refine (accesses_end _ _ hends _).mpr ⟨hs'', ?_⟩
  rw [Expr.shape_call, Expr.shape_call, hr, hrs]

end Parser
end ScriptAnalyzer

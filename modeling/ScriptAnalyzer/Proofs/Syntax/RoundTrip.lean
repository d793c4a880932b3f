import ScriptAnalyzer.Proofs.Syntax.OneLine
import ScriptAnalyzer.Proofs.Syntax.Operands

/-!
Printed expressions are read again. One lemma for each compound form finds the expression from its operands, and a file
that binds the printed expression to a name is read as that binding.
-/

namespace ScriptAnalyzer

namespace Parser

open ParserState
open Piece (next)

variable {s : ParserState} {before t : Token} {ps qs : List Piece} {e : Expr} {n : Nat}

/-! Annotations and sequences -/

variable {items : List Expr} {type : TypeExpr}

theorem exprFound_typed {span : Span} (h : OperandFound e) (htype : TypeFound type) :
    ExprFound (.typed span e type) := by
  have hpieces : (Expr.typed span e type).pieces = Piece.enclosed (e.operand ++ .punct .colon :: type.pieces) := rfl
  refine found_of_atom ⟨_, _, rfl, rfl⟩ rfl fun n hn => ?_
  rw [hpieces] at hn ⊢
  rw [Piece.enclosed, List.length_cons, List.length_append, List.length_append, List.length_cons] at hn
  obtain ⟨n, rfl⟩ : ∃ m, n = m + 3 := ⟨n - 3, by omega⟩
  refine parenthesised_rereads (fun qs => ?_) ?_
  · rw [List.append_assoc]
    exact h.next_ne rfl _
  · intro before qs s hqs hs
    rw [List.append_assoc, List.cons_append] at hs
    simp only [annotated, yields_bind, yields_get]
    refine (h.expr (by omega) _ _ s rfl hs).mono fun r s' h' => ?_
    obtain ⟨⟨b, hb, hs'⟩, hr⟩ := h'
    have hpeek : s'.peek = .punct .colon := hs'.peek
    have hends : endsType (next qs) = true := by
      rw [hqs]
      rfl
    simp only [hpeek, hs'.isOffside, decide_true, Bool.not_false, Bool.and_self, if_true, yields_bind, yields_skip]
    refine (htype.whole n (by omega) _ _ _ hends hs'.advance).mono fun t s'' h'' => ?_
    obtain ⟨hs'', ht⟩ := h''
    refine ⟨hs'', ?_⟩
    exact congrArg₂ (Expr.typed (.empty 0)) hr ht

/-- The items of a tuple behind its first one. -/
theorem tupleItems_resumes (hitems : ∀ e ∈ items, OperandFound e) (n : Nat)
    (hn : 8 * (items.flatMap fun e => .punct .comma :: e.operand).length < n) :
    (tupleItems n).Resumes (items.flatMap fun e => .punct .comma :: e.operand)
      (fun qs => endsExpr (next qs) = true) fun rs _ => rs.map Expr.shape = items.map Expr.shape := by
  induction items generalizing n with
  | nil =>
    intro qs s hqs hs
    have hcomma := (Bool.and_eq_true_iff.mp hqs).2
    exact (tupleItems_stop _ (hs.peek ▸ bne_iff_ne.mp hcomma) _).mpr ⟨hs, rfl⟩
  | cons e items ih =>
    obtain ⟨he, hitems⟩ := List.forall_mem_cons.mp hitems
    rintro qs s hqs ⟨b, hb, hs⟩
    rw [List.flatMap_cons, List.length_append, List.length_cons] at hn
    rw [List.flatMap_cons, List.cons_append, List.cons_append, List.append_assoc] at hs
    obtain ⟨n, rfl⟩ : ∃ m, n = m + 1 := ⟨n - 1, by omega⟩
    have hpeek : s.peek = .punct .comma := hs.peek
    have hends : endsOperand (next ((items.flatMap fun e => .punct .comma :: e.operand) ++ qs)) = true := by
      cases items with
      | nil => exact (Bool.and_eq_true_iff.mp hqs).1
      | cons => rfl
    simp only [tupleItems, yields_bind, yields_get, hpeek, hs.isOffside, decide_true, Bool.not_false, Bool.and_self,
      if_true, yields_skip]
    refine (he.simple (by omega) _ _ _ hends hs.advance).mono fun r s' h' => ?_
    obtain ⟨hs', hr⟩ := h'
    refine (ih hitems n (by omega) qs s' hqs hs').mono fun rs s'' h'' => ?_
    obtain ⟨hs'', hrs⟩ := h''
    refine ⟨hs'', ?_⟩
    exact congrArg₂ List.cons hr hrs

theorem exprFound_tuple {span : Span} (hlength : 2 ≤ items.length) (hitems : ∀ e ∈ items, OperandFound e) :
    ExprFound (.tuple span items) := by
  obtain ⟨first, second, items, rfl⟩ : ∃ first second more, items = first :: second :: more := by
    obtain ⟨first, rest, rfl⟩ := List.exists_cons_of_length_pos (Nat.lt_of_lt_of_le Nat.zero_lt_two hlength)
    obtain ⟨second, more, rfl⟩ := List.exists_cons_of_length_pos (Nat.le_of_succ_le_succ hlength)
    exact ⟨first, second, more, rfl⟩
  obtain ⟨hfirst, hitems⟩ := List.forall_mem_cons.mp hitems
  have hpieces : (Expr.tuple span (first :: second :: items)).pieces =
      first.operand ++ (second :: items).flatMap fun e => .punct .comma :: e.operand := by
    rw [Expr.pieces, Expr.operands_eq, List.map_cons, Piece.intercalate_cons, List.flatMap_map]
  refine found_of_whole rfl (fun qs => ?_) fun n hn => ?_
  · rw [hpieces, List.append_assoc]
    exact hfirst.next_ne rfl _
  rw [hpieces] at hn ⊢
  rw [List.length_append] at hn
  obtain ⟨n, rfl⟩ : ∃ m, n = m + 1 := ⟨n - 1, by omega⟩
  intro before qs s hqs hs
  rw [List.append_assoc] at hs
  simp only [expr, yields_bind]
  refine (hfirst.simple (by omega) _ _ s rfl hs).mono fun r s' h' => ?_
  obtain ⟨hs', hr⟩ := h'
  have hmore := tupleItems_resumes hitems n (by omega) qs s' (endsExpr_of_endsWhole _ hqs) hs'
  refine hmore.mono fun rs s'' h'' => ?_
  obtain ⟨hs'', hrs⟩ := h''
  split
  case h_1 last _ =>
    refine ⟨hs'', (Expr.shape_tuple (r.span.merge last.span) (r :: rs)).trans ?_⟩
    rw [Expr.shape_tuple, List.map_cons, hr, hrs]
    rfl
  case h_2 hnone =>
    rw [List.getLast?_eq_none_iff.mp hnone] at hrs
    cases hrs

theorem opens_close {close : Punct} (h : close = .rbracket ∨ close = .rbrace) :
    Token.opens (.punct close) = false := by
  rcases h with rfl | rfl <;> rfl

section

variable {α β γ : Type} {close : Punct} {unclosed : SyntaxError} {item : Parser (Option α)} {k : α → γ}

theorem sequenceItems_close (hclose : close = .rbracket ∨ close = .rbrace) (n : Nat) :
    (sequenceItems close unclosed item (n + 1)).Rereads [.punct close] (fun _ => True) fun r place =>
      r.1.map k = [] ∧ r.2 = place := by
  intro before qs s _ hs
  have hs : s.Faces before (.punct close :: qs) := hs
  have hpeek : s.peek = .punct close := hs.peek
  simp only [sequenceItems, yields_bind, yields_eat_some hpeek]
  exact ⟨hs.advance.leaves (opens_close hclose), rfl, hs.prevEnd.symm⟩

theorem sequenceItems_semicolon {ps : List Piece} {Ends : List Piece → Prop} {Q : List α × Nat → Nat → Prop} {n : Nat}
    (hclose : close = .rbracket ∨ close = .rbrace) (h : (sequenceItems close unclosed item n).Rereads ps Ends Q) :
    (sequenceItems close unclosed item (n + 1)).Resumes (.punct .semicolon :: ps) Ends Q := by
  rintro qs s hqs ⟨b, hb, hs⟩
  rw [List.cons_append] at hs
  have hpeek : s.peek = .punct .semicolon := hs.peek
  have hnone : s.peek ≠ .punct close := by
    rw [hpeek]
    rcases hclose with rfl | rfl <;> simp
  simp only [sequenceItems, yields_bind, yields_eat_none hnone, yields_get, hs.beforeColumn, Bool.false_eq_true,
    if_false, yields_eat_some hpeek]
  exact h _ qs _ hqs hs.advance

/-- An element in front of the rest `tail` of the sequence. -/
theorem sequenceItems_item {ps tail : List Piece} {x : γ} {xs : List γ} {n : Nat}
    (hclose : close = .rbracket ∨ close = .rbrace)
    (hstart : ∃ t qs, ps = .word t :: qs ∧ t.startsAtom = true)
    (hitem : item.Rereads ps (fun qs => next qs = .punct .semicolon ∨ next qs = .punct close) fun r _ =>
      ∃ a, r = some a ∧ k a = x)
    (hnext : ∀ qs, next (tail ++ qs) = .punct .semicolon ∨ next (tail ++ qs) = .punct close)
    (hrest : (sequenceItems close unclosed item n).Resumes tail (fun _ => True) fun r place =>
      r.1.map k = xs ∧ r.2 = place) :
    (sequenceItems close unclosed item (n + 1)).Rereads (ps ++ tail) (fun _ => True) fun r place =>
      r.1.map k = x :: xs ∧ r.2 = place := by
  obtain ⟨t, qs, rfl, ht⟩ := hstart
  have hcloseAtom : Token.startsAtom (.punct close) = false := by rcases hclose with rfl | rfl <;> rfl
  intro before qs' s _ hs
  rw [List.append_assoc] at hs
  have hpeek : s.peek.startsAtom = true := by
    rw [hs.peek]
    exact ht
  have hnone : ∀ {t}, t.startsAtom = false → s.peek ≠ t := by
    rintro t ht rfl
    rw [hpeek] at ht
    cases ht
  have hbefore : s.beforeColumn s.offside = false := hs.beforeColumn _
  simp only [sequenceItems, yields_bind, yields_eat_none (hnone hcloseAtom), yields_get, hbefore, Bool.false_eq_true,
    if_false, yields_eat_none (hnone (t := .punct .semicolon) rfl), yields_setAnchor]
  have hanchor : ParserState.Faces before ((.word t :: qs) ++ (tail ++ qs'))
      { s with anchor := some s.rest.length } := ⟨hs.laid, hs.errors⟩
  refine (hitem _ _ _ (hnext qs') hanchor).mono fun r s' h' => ?_
  obtain ⟨hs', a, hr, hk⟩ := h'
  -- the element has a first token, so the parser is not stuck in front of it
  have hread : s'.rest.length ≠ s.rest.length := by
    rw [hs.length, hs'.choose_spec.2.length]
    simp only [List.length_append, List.length_cons]
    omega
  simp only [ifStuck, yields_bind, yields_get, if_neg hread, yields_pure]
  refine (hrest qs' s' trivial hs').mono fun result s'' h'' => ?_
  obtain ⟨rs, stop⟩ := result
  obtain ⟨hs'', hrs, hstop⟩ := h''
  refine ⟨hs'', ?_, hstop⟩
  subst hr
  exact congrArg₂ List.cons hk hrs

/-- The elements of a bracketed sequence between semicolons, if `item` reads each of them. -/
theorem sequenceItems_rereads {f : β → List Piece} {l : β → γ} {xs : List β}
    (hclose : close = .rbracket ∨ close = .rbrace)
    (hstart : ∀ x ∈ xs, ∃ t ps, f x = .word t :: ps ∧ t.startsAtom = true)
    (hitem : ∀ x ∈ xs, item.Rereads (f x) (fun qs => next qs = .punct .semicolon ∨ next qs = .punct close) fun r _ =>
      ∃ a, r = some a ∧ k a = l x) (n : Nat)
    (hn : 2 * ([Piece.punct .semicolon].intercalate (xs.map f)).length < n) :
    (sequenceItems close unclosed item n).Rereads ([Piece.punct .semicolon].intercalate (xs.map f) ++ [.punct close])
      (fun _ => True) fun r place => r.1.map k = xs.map l ∧ r.2 = place := by
  induction xs generalizing n with
  | nil =>
    obtain ⟨n, rfl⟩ : ∃ m, n = m + 1 := ⟨n - 1, by omega⟩
    exact sequenceItems_close hclose n
  | cons x xs ih =>
    obtain ⟨hx, hxs⟩ := List.forall_mem_cons.mp hitem
    obtain ⟨hstartx, hstarts⟩ := List.forall_mem_cons.mp hstart
    obtain ⟨n, rfl⟩ : ∃ m, n = m + 1 := ⟨n - 1, by omega⟩
    have hpos : 0 < (f x).length := by
      obtain ⟨t, ps, hps, -⟩ := hstartx
      rw [hps]
      exact Nat.succ_pos _
    cases xs with
    | nil =>
      rw [List.map_cons, List.map_nil, List.intercalate_singleton] at hn ⊢
      have hnil : 2 * ([Piece.punct .semicolon].intercalate (([] : List β).map f)).length < n := by
        rw [List.map_nil, List.intercalate_nil, List.length_nil]
        omega
      exact sequenceItems_item hclose hstartx hx (fun _ => .inr rfl) (ih hstarts hxs n hnil).resumes
    | cons y ys =>
      have hpieces : [Piece.punct .semicolon].intercalate ((x :: y :: ys).map f) =
          f x ++ .punct .semicolon :: [Piece.punct .semicolon].intercalate ((y :: ys).map f) := by
        rw [List.map_cons, List.map_cons, List.intercalate_cons_cons, List.append_assoc]
        rfl
      rw [hpieces] at hn ⊢
      rw [List.length_append, List.length_cons] at hn
      obtain ⟨n, rfl⟩ : ∃ m, n = m + 1 := ⟨n - 1, by omega⟩
      rw [List.append_assoc, List.cons_append]
      exact sequenceItems_item hclose hstartx hx (fun _ => .inl rfl)
        (sequenceItems_semicolon hclose (ih hstarts hxs n (by omega)))

end

/-- A bracketed sequence as an atom. -/
theorem bracketed_rereads {α β γ : Type} {opener close : Punct} (delimiter : Char) {item : Parser (Option α)}
    {f : β → List Piece} {k : α → γ} {l : β → γ} {xs : List β} (hclose : close = .rbracket ∨ close = .rbrace)
    (hstart : ∀ x ∈ xs, ∃ t ps, f x = .word t :: ps ∧ t.startsAtom = true)
    (hitem : ∀ x ∈ xs, item.Rereads (f x) (fun qs => next qs = .punct .semicolon ∨ next qs = .punct close) fun r _ =>
      ∃ a, r = some a ∧ k a = l x) (n : Nat)
    (hn : 2 * ([Piece.punct .semicolon].intercalate (xs.map f)).length < n) :
    (bracketed close delimiter item n).Rereads
      (.punct opener :: ([Piece.punct .semicolon].intercalate (xs.map f) ++ [.punct close]))
      (fun _ => True) fun r place => r.1.map k = xs.map l ∧ r.2 = place := by
  intro before qs s _ hs
  rw [List.cons_append] at hs
  simp only [bracketed, yields_bind, yields_bump, yields_get]
  exact nested_rereads (withOffside_rereads (sequenceItems_rereads hclose hstart hitem n hn) _) _ _ _ trivial hs.advance

theorem found_of_brackets {p : Punct} (hatomic : e.isAtomic = false) (hpieces : e.pieces = .punct p :: ps)
    (hstart : Token.startsAtom (.punct p) = true)
    (h : ∀ n, 8 * e.pieces.length + 3 ≤ n → FindsAtom (atom n) e.pieces e) : ExprFound e := by
  refine found_of_accessed hatomic (fun qs => ?_) (fun qs => ?_) fun n hn => ?_
  · rw [hpieces]
    exact hstart
  · rw [hpieces]
    rfl
  · obtain ⟨n, rfl⟩ : ∃ m, n = m + 1 := ⟨n - 1, by omega⟩
    exact (accessed_rereads (h n (by omega))).mono (fun _ => endsAccess_of_endsApplication) fun _ _ => id

theorem length_le_intercalate {α : Type} (p : Piece) (f : α → List Piece) {x : α} {xs : List α} (h : x ∈ xs) :
    (f x).length ≤ ([p].intercalate (xs.map f)).length := by
  induction xs with
  | nil => cases h
  | cons y xs ih =>
    rw [List.map_cons]
    cases xs with
    | nil =>
      exact Nat.le_of_eq (by rw [List.mem_singleton.mp h, List.map_nil, List.intercalate_singleton])
    | cons z xs =>
      rw [List.map_cons, List.intercalate_cons_cons, List.length_append, List.length_append]
      rcases List.mem_cons.mp h with rfl | h
      · omega
      · have hle := ih h
        rw [List.map_cons] at hle
        omega

theorem exprFound_list {span : Span} (hitems : ∀ e ∈ items, OperandFound e) : ExprFound (.list span items) := by
  have hpieces : (Expr.list span items).pieces =
      .punct .lbracket :: ([Piece.punct .semicolon].intercalate (items.map Expr.operand) ++ [.punct .rbracket]) := by
    rw [Expr.pieces, Expr.operands_eq]
  refine found_of_brackets rfl hpieces rfl fun n hn => ?_
  rw [hpieces] at hn ⊢
  rw [List.length_cons, List.length_append] at hn
  obtain ⟨n, rfl⟩ : ∃ m, n = m + 1 := ⟨n - 1, by omega⟩
  have hitem : ∀ e ∈ items, (some <$> expr n).Rereads e.operand
      (fun qs => next qs = .punct .semicolon ∨ next qs = .punct .rbracket) fun r _ =>
        ∃ a, r = some a ∧ a.shape = e.shape := by
    intro e he before qs s hqs hs
    have hle := length_le_intercalate (.punct .semicolon) Expr.operand he
    have hends : endsExpr (next qs) = true := by
      rcases hqs with hqs | hqs <;> rw [hqs] <;> rfl
    simp only [yields_map]
    exact ((hitems e he).expr (by omega) before qs s hends hs).mono fun r s' h' => ⟨h'.1, r, rfl, h'.2⟩
  intro before qs s _ hs
  have htoken : s.current.token = .punct .lbracket := hs.current_token
  have hread := bracketed_rereads '[' (.inl rfl) (fun e he => (hitems e he).start) hitem n (by omega) before qs s
    trivial hs
  simp only [atom, yields_bind, yields_get, hs.isOffside, Bool.false_eq_true, if_false, htoken]
  refine hread.mono fun result s' h' => ?_
  obtain ⟨rs, stop⟩ := result
  obtain ⟨hs', hrs, hstop⟩ := h'
  refine ⟨hs', ?_, hstop⟩
  exact (Expr.shape_list ⟨s.current.span.start, stop⟩ rs).trans (hrs ▸ (Expr.shape_list span items).symm)

theorem recordField_rereads {name : Ident} (h : OperandFound e) (hn : 8 * e.operand.length + 5 < n) :
    (recordField n).Rereads (.ident name.text :: .operator .eq :: e.operand)
      (fun qs => next qs = .punct .semicolon ∨ next qs = .punct .rbrace) fun r _ =>
        ∃ a, r = some a ∧ (a.1.unplaced, a.2.shape) = (name.unplaced, e.shape) := by
  obtain ⟨n, rfl⟩ : ∃ m, n = m + 1 := ⟨n - 1, by omega⟩
  intro before qs s hqs hs
  rw [List.cons_append, List.cons_append] at hs
  have hname : s.peek = .ident name.text := hs.peek
  have heq : s.advance.peek = .operator .eq := hs.advance.peek
  have hends : endsExpr (next qs) = true := by
    rcases hqs with hqs | hqs <;> rw [hqs] <;> rfl
  simp only [recordField, yields_bind, yields_ident? hname, yields_behind heq]
  refine (h.expr (by omega) _ qs _ hends hs.advance.advance).mono fun r s' ⟨hs', hr⟩ => ⟨hs', _, rfl, ?_⟩
  exact congrArg (Prod.mk name.unplaced) hr

theorem exprFound_record {span : Span} {fields : List (Ident × Expr)} (hfields : ∀ f ∈ fields, OperandFound f.2) :
    ExprFound (.record span fields) := by
  let entry (f : Ident × Expr) : List Piece := .ident f.1.text :: .operator .eq :: f.2.operand
  have hpieces : (Expr.record span fields).pieces =
      .punct .lbrace :: ([Piece.punct .semicolon].intercalate (fields.map entry) ++ [.punct .rbrace]) := by
    rw [Expr.pieces, Expr.entries_eq]
  refine found_of_brackets rfl hpieces rfl fun n hn => ?_
  rw [hpieces] at hn ⊢
  rw [List.length_cons, List.length_append] at hn
  obtain ⟨n, rfl⟩ : ∃ m, n = m + 1 := ⟨n - 1, by omega⟩
  have hitem : ∀ f ∈ fields, (recordField n).Rereads (entry f)
      (fun qs => next qs = .punct .semicolon ∨ next qs = .punct .rbrace) fun r _ =>
        ∃ a, r = some a ∧ (a.1.unplaced, a.2.shape) = (f.1.unplaced, f.2.shape) := by
    intro f hf
    have hle := length_le_intercalate (.punct .semicolon) entry hf
    have hlength : (entry f).length = f.2.operand.length + 2 := rfl
    exact recordField_rereads (hfields f hf) (by omega)
  intro before qs s _ hs
  have htoken : s.current.token = .punct .lbrace := hs.current_token
  have hread := bracketed_rereads (f := entry) '\x7b' (.inr rfl) (fun f _ => ⟨_, _, rfl, rfl⟩) hitem n (by omega) before
    qs s trivial hs
  simp only [atom, yields_bind, yields_get, hs.isOffside, Bool.false_eq_true, if_false, htoken]
  refine hread.mono fun result s' h' => ?_
  obtain ⟨rs, stop⟩ := result
  obtain ⟨hs', hrs, hstop⟩ := h'
  refine ⟨hs', ?_, hstop⟩
  exact (Expr.shape_record ⟨s.current.span.start, stop⟩ rs).trans (hrs ▸ (Expr.shape_record span fields).symm)

/-! Branches, functions and bindings -/

theorem found_of_keyword {k : Keyword} (hatomic : e.isAtomic = false) (hpieces : e.pieces = .keyword k :: ps)
    (h : ∀ n, 8 * e.pieces.length + 7 ≤ n → Finds (simpleExpr n) e.pieces endsWhole e) : ExprFound e := by
  refine found_of_whole hatomic (fun qs => ?_) fun n hn => ?_
  · rw [hpieces]
    exact nofun
  · obtain ⟨n, rfl⟩ : ∃ m, n = m + 1 := ⟨n - 1, by omega⟩
    exact expr_finds (fun t ht => ne_comma_of_endsExpr t (endsExpr_of_endsWhole t ht)) (h n (by omega))

theorem elsePart_finds {elseBranch : Option Expr} (h : ∀ b ∈ elseBranch, OperandFound b)
    (hn : 8 * (elseBranch.elim [] fun b => .keyword .elseKw :: b.operand).length < n + 1) :
    (elsePart (body n)).Resumes (elseBranch.elim [] fun b => .keyword .elseKw :: b.operand)
      (fun qs => endsWhole (next qs) = true) fun r _ => r.map Expr.shape = elseBranch.map Expr.shape := by
  intro qs s hqs hs
  cases elseBranch with
  | none =>
    have hpeek : s.peek ≠ .keyword .elseKw := by
      rw [hs.peek]
      intro h
      rw [show next qs = .keyword .elseKw from h] at hqs
      cases hqs
    simp only [elsePart, yields_bind, yields_get, hpeek, decide_false, Bool.false_and, Bool.false_eq_true, if_false]
    exact ⟨hs, rfl⟩
  | some branch =>
    obtain ⟨b, hb, hs⟩ := hs
    have hs : s.Faces b (.keyword .elseKw :: (branch.operand ++ qs)) := hs
    have hlength : 8 * (branch.operand.length + 1) < n + 1 := hn
    have hpeek : s.peek = .keyword .elseKw := hs.peek
    simp only [elsePart, yields_bind, yields_get, hpeek, hs.beforeColumn, decide_true, Bool.not_false, Bool.and_self,
      if_true, yields_skip]
    have hends := endsExpr_of_endsWhole _ hqs
    refine ((h branch rfl).body (by omega) _ _ _ hends hs.advance).mono fun r s' ⟨hs', hr⟩ => ⟨hs', ?_⟩
    exact congrArg some hr

theorem exprFound_conditional {span : Span} {condition thenBranch : Expr} {elseBranch : Option Expr}
    (hc : OperandFound condition) (ht : OperandFound thenBranch) (he : ∀ b ∈ elseBranch, OperandFound b) :
    ExprFound (.conditional span condition thenBranch elseBranch) := by
  have hpieces := Expr.pieces_conditional span condition thenBranch elseBranch
  refine found_of_keyword rfl hpieces fun n hn => ?_
  rw [hpieces] at hn ⊢
  rw [List.length_cons, List.length_append, List.length_cons, List.length_append] at hn
  obtain ⟨n, rfl⟩ : ∃ m, n = m + 2 := ⟨n - 2, by omega⟩
  intro before qs s hqs hs
  rw [List.cons_append, List.append_assoc, List.cons_append, List.append_assoc] at hs
  have hpeek : s.peek = .keyword .ifKw := hs.peek
  simp only [simpleExpr, yields_bind, yields_get, hpeek, conditional, yields_bump]
  refine (hc.expr (by omega) _ _ _ rfl hs.advance).mono fun c s₁ h' => ?_
  obtain ⟨⟨b, hb, hs₁⟩, hcondition⟩ := h'
  have hthen : s₁.peek = .keyword .thenKw := hs₁.peek
  have hends : endsExpr (next ((elseBranch.elim [] fun b => .keyword .elseKw :: b.operand) ++ qs)) = true := by
    cases elseBranch with
    | none => exact endsExpr_of_endsWhole _ hqs
    | some b => rfl
  simp only [thenPart, yields_bind, yields_get, hs₁.beforeColumn, Bool.false_eq_true, if_false, yields_behind hthen]
  refine (ht.body (by omega) _ _ _ hends hs₁.advance).mono fun t s₂ h' => ?_
  obtain ⟨hs₂, hthen'⟩ := h'
  refine (elsePart_finds he (by omega) qs s₂ hqs hs₂).mono fun r s₃ h' => ?_
  obtain ⟨hs₃, hr⟩ := h'
  refine ⟨hs₃, ?_⟩
  refine (Expr.shape_conditional ⟨s.current.span.start, s₃.prevEnd⟩ c t r).trans ?_
  rw [Expr.shape_conditional, hcondition, hthen', hr]

theorem exprFound_lambda {span : Span} {params : List Pattern} (hnonempty : params ≠ [])
    (hparams : ∀ p ∈ params, p.Built) (h : OperandFound e) : ExprFound (.lambda span params e) := by
  have hpieces : (Expr.lambda span params e).pieces =
      .keyword .funKw :: (params.flatMap Pattern.pieces ++ .operator .arrow :: e.operand) := rfl
  refine found_of_keyword rfl hpieces fun n hn => ?_
  rw [hpieces] at hn ⊢
  rw [List.length_cons, List.length_append, List.length_cons] at hn
  obtain ⟨n, rfl⟩ : ∃ m, n = m + 2 := ⟨n - 2, by omega⟩
  intro before qs s hqs hs
  rw [List.cons_append, List.append_assoc, List.cons_append] at hs
  have hpeek : s.peek = .keyword .funKw := hs.peek
  simp only [simpleExpr, yields_bind, yields_get, hpeek, lambda, yields_bump]
  have hfollow : ∀ more, (next (.operator .arrow :: more)).isIdent = false ∧
      next (.operator .arrow :: more) ≠ .punct .lparen := fun _ => ⟨rfl, by rintro ⟨⟩⟩
  have hread := params_resumes hparams n (by omega) _ _ (hfollow _) (hs.advance.leaves rfl)
  refine hread.mono fun rs s' h' => ?_
  obtain ⟨⟨b, hb, hs'⟩, hrs⟩ := h'
  have hsome : rs.isEmpty = false := by
    cases rs with
    | nil => exact absurd (List.map_eq_nil_iff.mp hrs.symm) hnonempty
    | cons => rfl
  have harrow : s'.peek = .operator .arrow := hs'.peek
  have hends := endsExpr_of_endsWhole _ hqs
  simp only [Parser.when, hsome, Bool.false_eq_true, if_false, yields_pure, yields_behind harrow]
  refine (h.body (by omega) _ _ _ hends hs'.advance).mono fun r s'' h'' => ?_
  obtain ⟨hs'', hr⟩ := h''
  refine ⟨hs'', ?_⟩
  exact congrArg₂ (Expr.lambda (.empty 0)) hrs hr

theorem rec_resumes (isRec : Bool) : (eat (.keyword .recKw)).Resumes (if isRec then [.keyword .recKw] else [])
    (fun qs => next qs ≠ .keyword .recKw) fun r _ => r.isSome = isRec := by
  intro qs s hqs hs
  cases isRec with
  | false => exact (yields_eat_none (hs.peek ▸ hqs) _).mpr ⟨hs, rfl⟩
  | true =>
    obtain ⟨b, hb, hs⟩ := hs
    have hs : s.Faces b (.keyword .recKw :: qs) := hs
    exact (yields_eat_some (show s.peek = .keyword .recKw from hs.peek) _).mpr ⟨hs.advance.leaves rfl, rfl⟩

theorem returnType_resumes {returnType : Option TypeExpr} (h : ∀ t ∈ returnType, t.Built)
    (hn : 8 * (returnType.elim [] fun t => .punct .colon :: t.pieces).length ≤ n) :
    (behind? (.punct .colon) (Parser.type n)).Resumes (returnType.elim [] fun t => .punct .colon :: t.pieces)
      (fun qs => next qs = .operator .eq) fun r _ => r.map TypeExpr.unplaced = returnType.map TypeExpr.unplaced := by
  intro qs s hqs hs
  cases returnType with
  | none =>
    have hnone : s.peek ≠ .punct .colon := by
      rw [hs.peek]
      exact (show next qs = .operator .eq from hqs) ▸ (by simp)
    simp only [behind?, yields_bind, yields_eat_none hnone]
    exact ⟨hs, rfl⟩
  | some t =>
    obtain ⟨b, hb, hs⟩ := hs
    have hs : s.Faces b (.punct .colon :: (t.pieces ++ qs)) := hs
    have hlength : 8 * (t.pieces.length + 1) ≤ n := hn
    have hpeek : s.peek = .punct .colon := hs.peek
    have hends : endsType (next qs) = true := by
      rw [hqs]
      rfl
    simp only [behind?, yields_bind, yields_eat_some hpeek]
    refine ((typeFound (h t rfl)).whole n (by omega) _ _ _ hends hs.advance).mono fun r s' h' => ?_
    obtain ⟨hs', hr⟩ := h'
    refine ⟨hs', ?_⟩
    exact congrArg some hr

theorem bindingPattern_resumes {p : Pattern} (h : p.Built) (hn : 8 * p.pieces.length ≤ n) :
    (bindingPattern (atomicPattern n)).Resumes p.pieces (fun _ => True) fun r _ => r.unplaced = p.unplaced := by
  rintro qs s - ⟨b, hb, hs⟩
  obtain ⟨t, ps, hps, ht⟩ := pattern_start h
  have hpeek : s.peek = t := by
    rw [hs.peek, hps]
    rfl
  simp only [bindingPattern, yields_bind, yields_get, hpeek]
  rcases ht with rfl | ⟨name, rfl⟩
  all_goals exact patternFound h n hn b qs s trivial hs

variable {head : LetHead}

theorem isNamed_of_unplaced {r p : Pattern} (h : r.unplaced = p.unplaced) : r.isNamed = p.isNamed := by
  have hkind : ∀ p : Pattern, p.unplaced.isNamed = p.isNamed := fun p => by cases p <;> rfl
  rw [← hkind r, h, hkind]

theorem params_isEmpty {rs params : List Pattern} (h : rs.map Pattern.unplaced = params.map Pattern.unplaced) :
    rs.isEmpty = params.isEmpty := by
  rw [← List.isEmpty_map (f := Pattern.unplaced), h, List.isEmpty_map]

/-- A binding is read behind its `let`. -/
theorem binding_finds {s : ParserState} {ends : Token → Bool} (hbuilt : head.Built) (hcallable : head.Callable)
    (hbody : Finds (body n) ps ends e) (hn : 8 * head.pieces.length < n) (hqs : ends (next qs) = true)
    (hs : s.advance.Faces (.keyword .letKw) (head.pieces ++ .operator .eq :: (ps ++ qs))) :
    (binding (n + 1)).Yields s fun b s' =>
      s'.Leaves qs ∧ b.toLetHead.unplaced = head.unplaced ∧ b.body.shape = e.shape := by
  obtain ⟨hpattern, hparams, hreturn⟩ := hbuilt
  simp only [LetHead.pieces, List.append_assoc] at hn hs
  simp only [List.length_append] at hn
  have hrec : ∀ more, next (head.pattern.pieces ++ more) ≠ .keyword .recKw := by
    obtain ⟨t, ps, hps, ht⟩ := pattern_start hpattern
    rw [hps]
    rintro more (rfl : t = _)
    rcases ht with ht | ⟨name, ht⟩ <;> cases ht
  have hfollow : ∀ more : List Piece,
      (next ((head.returnType.elim [] fun t => .punct .colon :: t.pieces) ++ .operator .eq :: more)).isIdent = false ∧
        next ((head.returnType.elim [] fun t => .punct .colon :: t.pieces) ++ .operator .eq :: more) ≠
          .punct .lparen := by
    cases head.returnType with
    | none => exact fun _ => ⟨rfl, by rintro ⟨⟩⟩
    | some t => exact fun _ => ⟨rfl, by rintro ⟨⟩⟩
  simp only [binding, yields_bind, yields_bump]
  refine (rec_resumes head.isRec _ _ (hrec _) (hs.leaves rfl)).mono fun rec s₁ h' => ?_
  obtain ⟨hs₁, hisRec⟩ := h'
  refine (bindingPattern_resumes hpattern (by omega) _ s₁ trivial hs₁).mono fun p s₂ h' => ?_
  obtain ⟨hs₂, hp⟩ := h'
  refine (params_resumes hparams n (by omega) _ s₂ (hfollow _) hs₂).mono fun rs s₃ h' => ?_
  obtain ⟨hs₃, hrs⟩ := h'
  have hvalid : (!rs.isEmpty && !p.isNamed) = false := by
    rw [params_isEmpty hrs, isNamed_of_unplaced hp]
    rcases hcallable with hcallable | hcallable
    · rw [hcallable]
      rfl
    · rw [hcallable, Bool.not_true, Bool.and_false]
  simp only [Parser.when, hvalid, Bool.false_eq_true, if_false, yields_pure]
  refine (returnType_resumes hreturn (by omega) _ s₃ rfl hs₃).mono fun type s₄ h' => ?_
  obtain ⟨⟨b, hb, hs₄⟩, htype⟩ := h'
  have heq : s₄.peek = .operator .eq := hs₄.peek
  simp only [yields_behind heq]
  refine (hbody _ _ _ hqs hs₄.advance).mono fun r s₅ h' => ?_
  obtain ⟨hs₅, hr⟩ := h'
  refine ⟨hs₅, ?_, hr⟩
  exact congrFun (congr (congr (congrArg₂ LetHead.mk hisRec hp) hrs) htype) (.empty 0)

theorem exprFound_letIn {span : Span} {value : Expr} (hbuilt : head.Built) (hcallable : head.Callable)
    (hvalue : OperandFound value) (h : OperandFound e) : ExprFound (.letIn span head value e) := by
  have hpieces : (Expr.letIn span head value e).pieces =
      .keyword .letKw :: head.pieces ++ .operator .eq :: (value.operand ++ .keyword .inKw :: e.operand) := rfl
  refine found_of_keyword rfl hpieces fun n hn => ?_
  rw [hpieces] at hn ⊢
  simp only [List.length_append, List.length_cons] at hn
  obtain ⟨n, rfl⟩ : ∃ m, n = m + 3 := ⟨n - 3, by omega⟩
  intro before qs s hqs hs
  simp only [List.cons_append, List.append_assoc] at hs
  have hpeek : s.peek = .keyword .letKw := hs.peek
  have hread := binding_finds (n := n + 1) hbuilt hcallable (hvalue.body (by omega)) (by omega) rfl hs.advance
  simp only [simpleExpr, yields_bind, yields_get, hpeek]
  refine hread.mono fun b s' h' => ?_
  obtain ⟨⟨before', _, hs'⟩, hhead, hbody⟩ := h'
  have hin : s'.peek = .keyword .inKw := hs'.peek
  have hends := endsExpr_of_endsWhole _ hqs
  simp only [hin, if_true, letScope, yields_bind, yields_skip]
  refine (h.body (by omega) _ _ _ hends hs'.advance).mono fun r s'' h'' => ?_
  obtain ⟨hs'', hr⟩ := h''
  refine ⟨hs'', ?_⟩
  have hshape := congr (congrArg₂ (Expr.letIn (.empty 0)) hhead hbody) hr
  exact hshape

/-- Every expression that is built is found in its pieces. -/
theorem exprFound {e : Expr} (h : e.Built LetHead.Callable) : ExprFound e := by
  induction h with
  | literal hv => exact exprFound_literal hv
  | ident => exact exprFound_ident _
  | member _ _ htarget => exact exprFound_member htarget.toOperandFound
  | call _ _ hcallee hargs => exact exprFound_call hcallee.toOperandFound fun a ha => (hargs a ha).toOperandFound
  | app _ _ hf ha => exact exprFound_app hf.toOperandFound ha.toOperandFound
  | neg _ h => exact exprFound_neg h.toOperandFound
  | binary _ _ hl hr => exact exprFound_binary hl.toOperandFound hr.toOperandFound
  | conditional _ _ _ hc ht he =>
    exact exprFound_conditional hc.toOperandFound ht.toOperandFound fun b hb => (he b hb).toOperandFound
  | lambda hnonempty hparams _ h => exact exprFound_lambda hnonempty hparams h.toOperandFound
  | letIn hhead hcallable _ _ hv h => exact exprFound_letIn hhead hcallable hv.toOperandFound h.toOperandFound
  | tuple hlength _ hitems => exact exprFound_tuple hlength fun e he => (hitems e he).toOperandFound
  | list _ hitems => exact exprFound_list fun e he => (hitems e he).toOperandFound
  | record _ _ hfields => exact exprFound_record fun f hf => (hfields f hf).toOperandFound
  | typed _ htype h => exact exprFound_typed h.toOperandFound (typeFound htype)

/-! Files of one binding -/

/-- The head of a binding to a name. -/
def itHead : LetHead where
  isRec := false
  pattern := .named (.empty 0) ⟨"it", .empty 0⟩
  params := []
  returnType := none
  span := .empty 0

theorem whole_body (h : e.Built LetHead.Callable) (hn : 8 * e.pieces.length + 8 < n) :
    Finds (body n) e.pieces endsWhole e := by
  obtain ⟨n, rfl⟩ : ∃ m, n = m + 1 := ⟨n - 1, by omega⟩
  have hexpr := (exprFound h).whole n (by omega)
  obtain ⟨t, ps, hps, -⟩ := h.pieces_start
  rw [hps] at hexpr ⊢
  exact body_finds hexpr

theorem itHead_built : itHead.Built := ⟨.named rfl (by decide), fun _ => nofun, fun _ => nofun⟩

/-- The binding of an expression is read as such. -/
theorem binding_reads (h : e.Built LetHead.Callable) (hn : 8 * e.pieces.length + 20 ≤ n) :
    ReadsLine .letKw (.ident "it" :: .operator .eq :: e.pieces) (fun d => ∃ place b, d = .binding place b ∧
      b.toLetHead.unplaced = itHead ∧ b.body.shape = e.shape) n := by
  intro column s hs
  obtain ⟨n, rfl⟩ : ∃ m, n = m + 2 := ⟨n - 2, by omega⟩
  have hlength : itHead.pieces.length = 1 := rfl
  have hfaces : s.advance.Faces (.keyword .letKw) (itHead.pieces ++ .operator .eq :: (e.pieces ++ [])) := by
    rw [List.append_nil]
    exact hs.faces
  have hread := binding_finds itHead_built (.inl rfl) (whole_body h (n := n) (by omega)) (by omega) rfl hfaces
  simp only [decl, yields_bind, yields_get, hs.peek]
  refine hread.mono fun b s' h' => ?_
  obtain ⟨hs', hhead, hbody⟩ := h'
  have hnone : s'.peek ≠ .keyword .inKw := hs'.peek ▸ (by rintro ⟨⟩)
  simp only [if_neg hnone, yields_pure]
  exact ⟨hs', _, b, rfl, hhead, hbody⟩

end Parser

namespace SyntaxFile

/-- Printing an expression on one line and parsing a binding to it yields the expression, up to places and parentheses,
and no errors. -/
theorem parse_printed {e : Expr} (h : e.Built LetHead.Callable) (path : Path) (kind : SourceKind) (defines : List String) :
    let f := parse path ("let it = ".toList ++ e.printed) kind defines
    f.errors = [] ∧ f.header = none ∧ ∃ place b, f.decls = [.binding place b] ∧ b.toLetHead.unplaced = Parser.itHead ∧
      b.body.shape = e.shape := by
  have hlegible : Piece.Legible (.ident "it" :: .operator .eq :: e.pieces) :=
    Piece.legible_cons.mpr ⟨.ident rfl, Piece.legible_cons.mpr ⟨.operator _, h.legible⟩⟩
  have hreads (n : Nat) (hn : 32 * (e.pieces.length + 2) + 64 ≤ n) := Parser.binding_reads h (n := n) (by omega)
  rw [h.line_printed]
  obtain ⟨herrors, hheader, d, hdecls, place, b, rfl, hhead, hbody⟩ :=
    parse_line hlegible (by decide) hreads path kind defines
  exact ⟨herrors, hheader, place, b, hdecls, hhead, hbody⟩

/-- `let (a, b) = p in (f(b, "\n"))` -/
def swapped : Expr :=
  let place : Span := .empty 0
  .letIn place
    { isRec := false, pattern := .tuple place [.named place ⟨"a", place⟩, .named place ⟨"b", place⟩], params := []
      returnType := none, span := place }
    (.ident ⟨"p", place⟩)
    (.call place (.ident ⟨"f", place⟩) [.ident ⟨"b", place⟩, .literal place (.string "\n")] place)

theorem swapped_built : swapped.Built LetHead.Callable := by
  have hpattern : ∀ p ∈ [Pattern.named (.empty 0) ⟨"a", .empty 0⟩, .named (.empty 0) ⟨"b", .empty 0⟩], p.Built := by
    simp only [List.forall_mem_cons]
    exact ⟨.named rfl (by decide), .named rfl (by decide), nofun⟩
  have hargs : ∀ e ∈ [Expr.ident ⟨"b", .empty 0⟩, .literal (.empty 0) (.string "\n")], e.Built LetHead.Callable := by
    simp only [List.forall_mem_cons]
    exact ⟨.ident rfl, .literal trivial, nofun⟩
  exact .letIn ⟨.tuple (Nat.le_refl 2) hpattern, nofun, nofun⟩ (.inl rfl) (.ident rfl) (.call (.ident rfl) hargs)

theorem parse_swapped : swapped.Built LetHead.Callable ∧
    let f := parse ⟨"swap.glx"⟩ ("let it = ".toList ++ swapped.printed) .script []
    f.errors = [] ∧ f.header = none ∧ ∃ place b, f.decls = [.binding place b] ∧ b.toLetHead.unplaced = Parser.itHead ∧
      b.body.shape = swapped.shape :=
  ⟨swapped_built, parse_printed swapped_built _ _ _⟩

/-- `let _ x = 1 in x`, a binding with a parameter and no name. -/
def nameless : Expr :=
  let place : Span := .empty 0
  .letIn place
    { isRec := false, pattern := .wildcard place, params := [.named place ⟨"x", place⟩], returnType := none
      span := place }
    (.literal place (.int 1)) (.ident ⟨"x", place⟩)

/-- What has parameters has to have a name. -/
theorem parse_nameless_reported : nameless.Built (fun _ => True) ∧
    (parse ⟨"nameless.glx"⟩ ("let it = ".toList ++ nameless.printed) .script []).errors ≠ [] := by
  refine ⟨.letIn ⟨.wildcard, ?_, nofun⟩ trivial (.literal (by decide : 1 ≤ Parser.maxInt)) (.ident rfl), by decide +kernel⟩
  simp only [List.forall_mem_singleton]
  exact .named rfl (by decide)

end SyntaxFile
end ScriptAnalyzer

import ScriptAnalyzer.Proofs.Syntax.Printing
import ScriptAnalyzer.Proofs.Syntax.Reading

/-!
Parsers in front of written pieces. A parser rereads the pieces of a tree if it reads just these and finds the tree,
whatever allowed pieces stand behind. All is on one line, so neither the offside column nor the anchor matters.
-/

namespace ScriptAnalyzer

/-- The token that the pieces start with. -/
def Piece.next (ps : List Piece) : Token := ps.head?.elim .eof token

theorem Piece.Laid.length {before : Token} {place : Nat} {ps : List Piece} {us : List LaidToken}
    (h : Piece.Laid before place ps us) : us.length = ps.length := by
  induction h with
  | nil => rfl
  | cons _ _ _ _ _ ih => rw [List.length_cons, List.length_cons, ih]

namespace ParserState

variable {s : ParserState} {before : Token} {p : Piece} {ps : List Piece}

/-- The pieces are what is left to read behind the token `before`, and nothing was reported. -/
structure Faces (before : Token) (ps : List Piece) (s : ParserState) : Prop where
  laid : Piece.Laid before s.prevEnd ps s.rest
  errors : s.errors = []

/-- The pieces are left behind a token that is no opening bracket. -/
def Leaves (ps : List Piece) (s : ParserState) : Prop := ∃ before, Token.opens before = false ∧ s.Faces before ps

namespace Faces

theorem exists_cons (h : s.Faces before (p :: ps)) : ∃ t ts, s.rest = t :: ts ∧ t.token = p.token ∧
    t.lineStart = false ∧ t.span.start = (if p.spaced before then s.prevEnd + 1 else s.prevEnd) ∧
      t.span.start ≤ t.span.stop ∧ Piece.Laid p.token t.span.stop ps ts := by
  obtain ⟨hlaid, -⟩ := h
  generalize hrest : s.rest = rest at hlaid
  cases hlaid with
  | cons htoken hline hstart hle hlaid => exact ⟨_, _, rfl, htoken, hline, hstart, hle, hlaid⟩

theorem rest_nil (h : s.Faces before []) : s.rest = [] := by
  obtain ⟨hlaid, -⟩ := h
  generalize s.rest = rest at hlaid
  cases hlaid
  rfl

theorem atEnd (h : s.Faces before (p :: ps)) : s.atEnd = false := by
  obtain ⟨t, ts, hrest, -⟩ := h.exists_cons
  rw [ParserState.atEnd, hrest]
  rfl

theorem current_token (h : s.Faces before (p :: ps)) : s.current.token = p.token := by
  obtain ⟨t, ts, hrest, htoken, -⟩ := h.exists_cons
  rw [current, hrest]
  exact htoken

theorem lineStart (h : s.Faces before (p :: ps)) : s.current.lineStart = false := by
  obtain ⟨t, ts, hrest, -, hline, -⟩ := h.exists_cons
  rw [current, hrest]
  exact hline

theorem start (h : s.Faces before (p :: ps)) :
    s.current.span.start = if p.spaced before then s.prevEnd + 1 else s.prevEnd := by
  obtain ⟨t, ts, hrest, -, -, hstart, -⟩ := h.exists_cons
  rw [current, hrest]
  exact hstart

theorem start_le (h : s.Faces before (p :: ps)) : s.current.span.start ≤ s.current.span.stop := by
  obtain ⟨t, ts, hrest, -, -, -, hle, -⟩ := h.exists_cons
  rw [current, hrest]
  exact hle

theorem prevEnd_le (h : s.Faces before (p :: ps)) : s.prevEnd ≤ s.current.span.stop := by
  refine Nat.le_trans ?_ h.start_le
  rw [h.start]
  split
  · exact Nat.le_succ _
  · exact Nat.le_refl _

theorem prevEnd (h : s.Faces before (p :: ps)) : s.advance.prevEnd = s.current.span.stop := by
  obtain ⟨t, ts, hrest, -⟩ := h.exists_cons
  rw [advance, current, hrest]
  rfl

theorem advance (h : s.Faces before (p :: ps)) : s.advance.Faces p.token ps := by
  obtain ⟨t, ts, hrest, -, -, -, -, hlaid⟩ := h.exists_cons
  rw [ParserState.advance, hrest]
  exact ⟨hlaid, h.errors⟩

/-- The pieces end one behind the other. -/
theorem stop_le {q : Piece} (h : s.Faces before (p :: q :: ps)) :
    s.current.span.stop ≤ s.advance.current.span.stop := by
  rw [← h.prevEnd]
  exact h.advance.prevEnd_le

theorem peek (h : s.Faces before ps) : s.peek = Piece.next ps := by
  cases ps with
  | nil =>
    rw [ParserState.peek, current, h.rest_nil]
    rfl
  | cons p ps => exact h.current_token

theorem isOffside (h : s.Faces before (p :: ps)) : s.isOffside = false := by
  rw [ParserState.isOffside, h.atEnd, h.lineStart]
  rfl

theorem beforeColumn (h : s.Faces before (p :: ps)) (column : Nat) : s.beforeColumn column = false := by
  rw [ParserState.beforeColumn, h.atEnd, h.lineStart]
  rfl

theorem length (h : s.Faces before ps) : s.rest.length = ps.length := h.laid.length

theorem leaves (h : s.Faces before ps) (hbefore : Token.opens before = false) : s.Leaves ps := ⟨before, hbefore, h⟩

end Faces

theorem Leaves.peek (h : s.Leaves ps) : s.peek = Piece.next ps := h.choose_spec.2.peek

theorem Leaves.errors (h : s.Leaves ps) : s.errors = [] := h.choose_spec.2.errors

end ParserState

namespace Parser

open ParserState
open Piece (next)

variable {α β : Type} {s : ParserState} {before t : Token} {p : Piece} {ps qs : List Piece}

/-- The parser reads the pieces and nothing behind them, if what stands there is one of the kind `Ends`. Of the
result and the place where it stops `Q` holds. -/
def Rereads (p : Parser α) (ps : List Piece) (Ends : List Piece → Prop) (Q : α → Nat → Prop) : Prop :=
  ∀ before qs s, Ends qs → s.Faces before (ps ++ qs) → p.Yields s fun a s' => s'.Leaves qs ∧ Q a s'.prevEnd

/-- The same behind a token that is no opening bracket. -/
def Resumes (p : Parser α) (ps : List Piece) (Ends : List Piece → Prop) (Q : α → Nat → Prop) : Prop :=
  ∀ qs s, Ends qs → s.Leaves (ps ++ qs) → p.Yields s fun a s' => s'.Leaves qs ∧ Q a s'.prevEnd

theorem Rereads.resumes {f : Parser α} {Ends : List Piece → Prop} {Q : α → Nat → Prop} (h : f.Rereads ps Ends Q) :
    f.Resumes ps Ends Q :=
  fun qs s hqs ⟨before, _, hs⟩ => h before qs s hqs hs

theorem Rereads.mono {f : Parser α} {Ends Ends' : List Piece → Prop} {Q R : α → Nat → Prop}
    (h : f.Rereads ps Ends Q) (hEnds : ∀ qs, Ends' qs → Ends qs) (hQR : ∀ a place, Q a place → R a place) :
    f.Rereads ps Ends' R :=
  fun before qs s hqs hs => (h before qs s (hEnds qs hqs) hs).mono fun a _ ⟨hs', ha⟩ => ⟨hs', hQR a _ ha⟩

/-! Elementary steps -/

theorem yields_nested (f : Parser α) (s : ParserState) (Q : α → ParserState → Prop) : (nested f).Yields s Q ↔
    f.Yields { s with nesting := s.nesting + 1 } fun a s' => Q a { s' with nesting := s'.nesting - 1 } :=
  Iff.rfl

theorem yields_withOffside (column : Nat) (f : Parser α) (s : ParserState) (Q : α → ParserState → Prop) :
    (withOffside column f).Yields s Q ↔
      f.Yields { s with offside := column } fun a s' => Q a { s' with offside := s.offside } :=
  Iff.rfl

theorem nested_rereads {f : Parser α} {Ends : List Piece → Prop} {Q : α → Nat → Prop} (h : f.Rereads ps Ends Q) :
    (nested f).Rereads ps Ends Q := by
  intro before qs s hqs hs
  have hf := h before qs { s with nesting := s.nesting + 1 } hqs ⟨hs.laid, hs.errors⟩
  refine (yields_nested ..).mpr (hf.mono fun a s' ⟨⟨before', hbefore, hs'⟩, ha⟩ => ?_)
  exact ⟨⟨before', hbefore, hs'.laid, hs'.errors⟩, ha⟩

theorem withOffside_rereads {f : Parser α} {Ends : List Piece → Prop} {Q : α → Nat → Prop} (h : f.Rereads ps Ends Q)
    (column : Nat) : (withOffside column f).Rereads ps Ends Q := by
  intro before qs s hqs hs
  have hf := h before qs { s with offside := column } hqs ⟨hs.laid, hs.errors⟩
  refine (yields_withOffside ..).mpr (hf.mono fun a s' ⟨⟨before', hbefore, hs'⟩, ha⟩ => ?_)
  exact ⟨⟨before', hbefore, hs'.laid, hs'.errors⟩, ha⟩

theorem yields_eat_some (h : s.peek = t) (Q : Option Span → ParserState → Prop) :
    (eat t).Yields s Q ↔ Q (some s.current.span) s.advance := by
  rw [yields_eat, if_pos h]

theorem yields_eat_none (h : s.peek ≠ t) (Q : Option Span → ParserState → Prop) :
    (eat t).Yields s Q ↔ Q none s := by
  rw [yields_eat, if_neg h]

theorem yields_behind (h : s.peek = t) (what : String) (f : Parser Expr) (Q : Expr → ParserState → Prop) :
    (behind t what f).Yields s Q ↔ f.Yields s.advance Q := by
  simp only [behind, expect, yields_bind, yields_eat_some h]
  exact Iff.rfl

theorem yields_closing {close : Punct} (h : s.peek = .punct close) (e : SyntaxError)
    (Q : Nat → ParserState → Prop) : (closing close e).Yields s Q ↔ Q s.current.span.stop s.advance := by
  simp only [closing, yields_bind, yields_eat_some h]
  exact Iff.rfl

theorem yields_ident? {name : String} (h : s.peek = .ident name) (Q : Option Ident → ParserState → Prop) :
    ident?.Yields s Q ↔ Q (some ⟨name, s.current.span⟩) s.advance := by
  simp only [ident?, yields_bind, yields_get, h]
  exact Iff.rfl

/-! Dotted names -/

theorem segments_laid {tail : List Ident} {place : Nat} {us : List LaidToken} (hqs : next qs ≠ .punct .dot)
    (hbefore : Token.opens before = false)
    (h : Piece.Laid before place (tail.flatMap (fun i => [.punct .dot, .ident i.text]) ++ qs) us) :
    ∃ before', Token.opens before' = false ∧ (segments us).map Ident.unplaced = tail.map Ident.unplaced ∧
      Piece.Laid before' (((segments us).getLast?.map (·.span.stop)).getD place) qs (us.drop (2 * (segments us).length)) := by
  induction tail generalizing before place us with
  | nil =>
    have hnone : segments us = [] := by
      cases h with
      | nil => rfl
      | cons htoken =>
        unfold segments
        split
        case h_1 hus =>
          obtain ⟨rfl, -⟩ := List.cons.inj hus
          exact absurd htoken.symm hqs
        case h_2 => rfl
    rw [hnone]
    exact ⟨before, hbefore, rfl, h⟩
  | cons i tail ih =>
    cases h with
    | @cons _ _ _ _ dot _ hdot _ _ _ h =>
      cases h with
      | @cons _ _ _ _ u us hu _ _ _ h =>
        obtain ⟨token, span, column, lineStart⟩ := dot
        obtain ⟨token', span', column', lineStart'⟩ := u
        obtain rfl : token = .punct .dot := hdot
        obtain rfl : token' = .ident i.text := hu
        obtain ⟨before', hbefore', hmap, hlaid⟩ := ih rfl h
        refine ⟨before', hbefore', ?_, ?_⟩
        · rw [segments, List.map_cons, hmap]
          rfl
        · rw [segments, List.getLast?_cons]
          have hlast : ((segments us).getLast?.map (·.span.stop)).getD span'.stop =
              ((some ((segments us).getLast?.getD ⟨i.text, span'⟩)).map (·.span.stop)).getD place := by
            cases (segments us).getLast? <;> rfl
          rw [← hlast]
          exact hlaid

theorem longIdent?_rereads {n : LongIdent} :
    longIdent?.Rereads n.pieces (next · ≠ .punct .dot) fun r _ => ∃ n', r = some n' ∧ n'.unplaced = n.unplaced := by
  intro before qs s hqs hs
  have hpeek : s.peek = .ident n.head.text := hs.peek
  simp only [longIdent?, yields_bind, yields_ident? hpeek, yields_get, yields_modify, yields_pure]
  have hadvance := hs.advance
  obtain ⟨before', hbefore, hmap, hlaid⟩ := segments_laid hqs rfl hadvance.laid
  refine ⟨⟨before', hbefore, hlaid, hadvance.errors⟩, _, rfl, ?_⟩
  exact congrArg (LongIdent.mk ⟨n.head.text, .empty 0⟩) hmap

/-! Types -/

/-- Tokens that continue no name. -/
def endsName (t : Token) : Bool := t != .punct .dot

/-- Tokens that continue no type without a star or an arrow. -/
def endsSuffixes : Token → Bool
  | .ident _ | .punct .lbracket | .punct .dot => false
  | _ => true

def endsTupleType (t : Token) : Bool := endsSuffixes t && t != .operator .star

def endsType (t : Token) : Bool := endsTupleType t && t != .operator .arrow

/-- The parser finds the type `t` in the pieces if a token of the kind `ends` stands behind. -/
def FindsType (f : Parser TypeExpr) (ps : List Piece) (ends : Token → Bool) (t : TypeExpr) : Prop :=
  f.Rereads ps (fun qs => ends (next qs) = true) fun r _ => r.unplaced = t.unplaced

variable {n : Nat} {type : TypeExpr} {types : List TypeExpr}

theorem endsName_of_endsSuffixes (h : endsSuffixes t = true) : endsName t = true := by
  refine bne_iff_ne.mpr ?_
  rintro rfl
  cases h

theorem typeSuffixes_stop (n : Nat) (type : TypeExpr) (h : endsSuffixes s.peek = true)
    (Q : TypeExpr → ParserState → Prop) : (typeSuffixes n type).Yields s Q ↔ Q type s := by
  cases n with
  | zero => exact Iff.rfl
  | succ n =>
    simp only [typeSuffixes, yields_bind, yields_get]
    split
    case isTrue => exact Iff.rfl
    case isFalse =>
      generalize s.peek = t at h ⊢
      split
      case h_1 => cases h
      case h_2 => cases h
      case h_3 => exact Iff.rfl

theorem suffixedType_finds (h : FindsType (atomicType n) ps endsName type) :
    FindsType (suffixedType (n + 1)) ps endsSuffixes type := by
  intro before qs s hqs hs
  simp only [suffixedType, yields_bind]
  refine (h before qs s (endsName_of_endsSuffixes hqs) hs).mono fun r s' ⟨hs', hr⟩ => ?_
  exact (typeSuffixes_stop _ _ (hs'.peek ▸ hqs) _).mpr ⟨hs', hr⟩

theorem tupleTypeItems_stop (n : Nat) (h : s.peek ≠ .operator .star) (Q : List TypeExpr → ParserState → Prop) :
    (tupleTypeItems n).Yields s Q ↔ Q [] s := by
  cases n with
  | zero => exact Iff.rfl
  | succ n =>
    simp only [tupleTypeItems, yields_bind, yields_get]
    rw [if_neg (by simp [h])]
    exact Iff.rfl

theorem tupleType_finds (h : FindsType (suffixedType n) ps endsSuffixes type) :
    FindsType (tupleType (n + 1)) ps endsTupleType type := by
  intro before qs s hqs hs
  obtain ⟨hsuffixes, hstar⟩ := Bool.and_eq_true_iff.mp hqs
  simp only [tupleType, yields_bind]
  refine (h before qs s hsuffixes hs).mono fun r s' ⟨hs', hr⟩ => ?_
  exact (tupleTypeItems_stop _ (hs'.peek ▸ bne_iff_ne.mp hstar) _).mpr ⟨hs', hr⟩

theorem type_finds (h : FindsType (tupleType n) ps endsTupleType type) :
    FindsType (Parser.type (n + 1)) ps endsType type := by
  intro before qs s hqs hs
  obtain ⟨htuple, harrow⟩ := Bool.and_eq_true_iff.mp hqs
  simp only [Parser.type, yields_bind, yields_get]
  refine (h before qs s htuple hs).mono fun r s' ⟨hs', hr⟩ => ?_
  rw [if_neg (by simp [hs'.peek, bne_iff_ne.mp harrow])]
  exact ⟨hs', hr⟩

theorem typeSuffixes_app {ctor : LongIdent} (hs : s.Leaves (ctor.pieces ++ qs)) (hqs : endsName (next qs) = true)
    {Q : TypeExpr → ParserState → Prop} (hmore : ∀ ctor' s', ctor'.unplaced = ctor.unplaced → s'.Leaves qs →
      (typeSuffixes n (.app (type.span.merge ctor'.span) type ctor')).Yields s' Q) :
    (typeSuffixes (n + 1) type).Yields s Q := by
  obtain ⟨b, hb, hs⟩ := hs
  have hpeek : s.peek = .ident ctor.head.text := hs.peek
  have hline : s.current.lineStart = false := hs.lineStart
  simp only [typeSuffixes, yields_bind, yields_get, hline, hpeek, Bool.false_eq_true, if_false]
  refine (longIdent?_rereads _ _ s (bne_iff_ne.mp hqs) hs).mono fun r s' ⟨hs', ctor', hr, hctor⟩ => ?_
  subst hr
  exact hmore ctor' s' hctor hs'

theorem typeSuffixes_array (hp : p.token = .punct .lbracket) (hs : s.Leaves (p :: .punct .rbracket :: qs))
    {Q : TypeExpr → ParserState → Prop}
    (hmore : ∀ span s', s'.Leaves qs → (typeSuffixes n (.array span type)).Yields s' Q) :
    (typeSuffixes (n + 1) type).Yields s Q := by
  obtain ⟨b, hb, hs⟩ := hs
  have hpeek : s.peek = .punct .lbracket := hs.peek.trans hp
  have hahead : s.ahead 1 = .punct .rbracket := (peek_advance s).symm.trans hs.advance.peek
  simp only [typeSuffixes, yields_bind, yields_get, hs.lineStart, hpeek, hahead, Bool.false_eq_true, if_false,
    if_true, yields_skip, yields_bump]
  exact hmore _ _ (hs.advance.advance.leaves rfl)

theorem functionType_finds {span : Span} {domain codomain : TypeExpr} (hd : FindsType (tupleType n) ps endsTupleType domain)
    (hc : FindsType (Parser.type n) qs endsType codomain) :
    FindsType (Parser.type (n + 1)) (ps ++ .operator .arrow :: qs) endsType (.function span domain codomain) := by
  intro before rest s hrest hs
  rw [List.append_assoc] at hs
  simp only [Parser.type, yields_bind, yields_get]
  refine (hd _ _ s rfl hs).mono fun r s' ⟨⟨b, hb, hs'⟩, hr⟩ => ?_
  have hpeek : s'.peek = .operator .arrow := hs'.peek
  have hplain : s'.isOffside = false := hs'.isOffside
  simp only [hpeek, hplain, decide_true, Bool.not_false, Bool.and_self, if_true, yields_bind, yields_skip]
  refine (hc _ _ _ hrest hs'.advance).mono fun r' s'' ⟨hs'', hr'⟩ => ?_
  exact ⟨hs'', congrArg₂ (TypeExpr.function (.empty 0)) hr hr'⟩

/-- The items of a tuple type behind its first one, if the parser finds each of them. -/
theorem tupleTypeItems_resumes {f : TypeExpr → List Piece}
    (htypes : ∀ t ∈ types, ∀ n, 8 * (f t).length < n → FindsType (suffixedType n) (f t) endsSuffixes t) (n : Nat)
    (hn : 8 * (types.flatMap fun t => .operator .star :: f t).length < n) :
    (tupleTypeItems n).Resumes (types.flatMap fun t => .operator .star :: f t)
      (fun qs => endsTupleType (next qs) = true) fun rs _ => rs.map (·.unplaced) = types.map (·.unplaced) := by
  induction types generalizing n with
  | nil =>
    intro qs s hqs hs
    have hstar := (Bool.and_eq_true_iff.mp hqs).2
    exact (tupleTypeItems_stop _ (hs.peek ▸ bne_iff_ne.mp hstar) _).mpr ⟨hs, rfl⟩
  | cons t types ih =>
    obtain ⟨ht, htypes⟩ := List.forall_mem_cons.mp htypes
    rintro qs s hqs ⟨b, hb, hs⟩
    rw [List.flatMap_cons, List.length_append, List.length_cons] at hn
    rw [List.flatMap_cons, List.cons_append, List.cons_append, List.append_assoc] at hs
    obtain ⟨n, rfl⟩ : ∃ m, n = m + 1 := ⟨n - 1, by omega⟩
    have hpeek : s.peek = .operator .star := hs.peek
    have hends : endsSuffixes (next ((types.flatMap fun t => .operator .star :: f t) ++ qs)) = true := by
      cases types with
      | nil => exact (Bool.and_eq_true_iff.mp hqs).1
      | cons => rfl
    simp only [tupleTypeItems, yields_bind, yields_get, hpeek, hs.isOffside, decide_true, Bool.not_false, Bool.and_self,
      if_true, yields_skip]
    refine (ht n (by omega) _ _ _ hends hs.advance).mono fun r s' ⟨hs', hr⟩ => ?_
    refine (ih htypes n (by omega) qs s' hqs hs').mono fun rs s'' ⟨hs'', hrs⟩ => ⟨hs'', ?_⟩
    exact congrArg₂ List.cons hr hrs

theorem tupleType_items_finds {span : Span} {f : TypeExpr → List Piece} (hlength : 2 ≤ types.length)
    (htypes : ∀ t ∈ types, ∀ n, 8 * (f t).length < n → FindsType (suffixedType n) (f t) endsSuffixes t)
    (hn : 8 * ([.operator .star].intercalate (types.map f)).length < n) :
    FindsType (tupleType (n + 1)) ([.operator .star].intercalate (types.map f)) endsTupleType (.tuple span types) := by
  obtain ⟨first, second, types, rfl⟩ : ∃ first second more, types = first :: second :: more := by
    match types, hlength with
    | first :: second :: more, _ => exact ⟨first, second, more, rfl⟩
  obtain ⟨hfirst, htypes⟩ := List.forall_mem_cons.mp htypes
  rw [List.map_cons, Piece.intercalate_cons, List.flatMap_map] at hn ⊢
  rw [List.length_append] at hn
  intro before qs s hqs hs
  rw [List.append_assoc] at hs
  simp only [Parser.tupleType, yields_bind]
  refine (hfirst n (by omega) _ _ s rfl hs).mono fun r s' ⟨hs', hr⟩ => ?_
  refine (tupleTypeItems_resumes htypes n (by omega) qs s' hqs hs').mono fun rs s'' ⟨hs'', hrs⟩ => ?_
  have hmap : (TypeExpr.tuple span (first :: second :: types)).unplaced =
      .tuple (.empty 0) ((first :: second :: types).map (·.unplaced)) := TypeExpr.mapSpans_tuple _ _ _
  rw [hmap]
  split
  case h_1 => exact ⟨hs'', (TypeExpr.mapSpans_tuple _ _ _).trans (congrArg _ (congrArg₂ List.cons hr hrs))⟩
  case h_2 hnone =>
    rw [List.getLast?_eq_none_iff.mp hnone] at hrs
    cases hrs

/-- The pieces of a type as an operand and by themselves, for every bound on the recursion that is large enough. -/
structure TypeFound (type : TypeExpr) : Prop where
  operand : ∀ n, 8 * type.operand.length ≤ n → FindsType (atomicType n) type.operand endsName type
  whole : ∀ n, 8 * type.pieces.length + 8 ≤ n → FindsType (Parser.type n) type.pieces endsType type

theorem atomicType_enclosed (h : FindsType (Parser.type n) ps endsType type) :
    FindsType (atomicType (n + 1)) (Piece.enclosed ps) endsName type := by
  intro before qs s _ hs
  rw [Piece.enclosed, List.cons_append, List.append_assoc, List.singleton_append] at hs
  have hopen : s.peek = .punct .lparen := hs.peek
  simp only [atomicType, yields_bind, yields_get, hs.isOffside, hopen, Bool.false_eq_true, if_false, yields_bump]
  refine (nested_rereads h _ _ _ rfl hs.advance).mono fun r s' ⟨⟨b, hb, hs'⟩, hr⟩ => ?_
  refine (yields_closing hs'.peek _ _).mpr ⟨hs'.advance.leaves rfl, ?_⟩
  exact (TypeExpr.unplaced_withSpan _ _).trans hr

theorem typeFound_of_atomic (hatomic : type.isAtomic = true)
    (h : ∀ n, 8 * type.operand.length ≤ n → FindsType (atomicType n) type.operand endsName type) :
    TypeFound type := by
  refine ⟨h, fun n hn => ?_⟩
  have hpieces : type.operand = type.pieces := if_pos hatomic
  rw [hpieces] at h
  obtain ⟨n, rfl⟩ : ∃ m, n = m + 3 := ⟨n - 3, by omega⟩
  exact type_finds (tupleType_finds (suffixedType_finds (h n (by omega))))

theorem typeFound_of_whole (hatomic : type.isAtomic = false)
    (h : ∀ n, 8 * type.pieces.length + 8 ≤ n → FindsType (Parser.type n) type.pieces endsType type) :
    TypeFound type := by
  refine ⟨fun n hn => ?_, h⟩
  have hpieces : type.operand = Piece.enclosed type.pieces := if_neg (by simp [hatomic])
  rw [hpieces, Piece.enclosed, List.length_cons, List.length_append, List.length_singleton] at hn
  rw [hpieces]
  obtain ⟨n, rfl⟩ : ∃ m, n = m + 1 := ⟨n - 1, by omega⟩
  exact atomicType_enclosed (h n (by omega))

theorem TypeFound.suffixed (h : TypeFound type) {n : Nat} (hn : 8 * type.operand.length < n) :
    FindsType (suffixedType n) type.operand endsSuffixes type := by
  obtain ⟨n, rfl⟩ : ∃ m, n = m + 1 := ⟨n - 1, by omega⟩
  exact suffixedType_finds (h.operand n (by omega))

theorem TypeFound.starred (h : TypeFound type) {n : Nat} (hn : 8 * type.operand.length + 1 < n) :
    FindsType (tupleType n) type.operand endsTupleType type := by
  obtain ⟨n, rfl⟩ : ∃ m, n = m + 1 := ⟨n - 1, by omega⟩
  exact tupleType_finds (h.suffixed (by omega))

theorem TypeFound.arrowed (h : TypeFound type) {n : Nat} (hn : 8 * type.operand.length + 2 < n) :
    FindsType (Parser.type n) type.operand endsType type := by
  obtain ⟨n, rfl⟩ : ∃ m, n = m + 1 := ⟨n - 1, by omega⟩
  exact type_finds (h.starred (by omega))

theorem typeFound_named {span : Span} {name : LongIdent} : TypeFound (.named span name) := by
  refine typeFound_of_atomic rfl fun n hn => ?_
  obtain ⟨n, rfl⟩ : ∃ m, n = m + 1 := ⟨n - 1, by
    have hpos : 0 < (TypeExpr.named span name).operand.length := Nat.succ_pos _
    omega⟩
  intro before qs s hqs hs
  have hs' : s.Faces before (name.pieces ++ qs) := hs
  have hpeek : s.peek = .ident name.head.text := hs'.peek
  have hplain : s.isOffside = false := hs'.isOffside
  simp only [atomicType, yields_bind, yields_get, hplain, hpeek, Bool.false_eq_true, if_false]
  refine (longIdent?_rereads _ _ s (bne_iff_ne.mp hqs) hs').mono fun r s' ⟨hs', name', hr, hname⟩ => ?_
  subst hr
  exact ⟨hs', congrArg (TypeExpr.named (.empty 0)) hname⟩

theorem typeFound_var {span : Span} {name : Ident} : TypeFound (.var span name) := by
  refine typeFound_of_atomic rfl fun n hn => ?_
  obtain ⟨n, rfl⟩ : ∃ m, n = m + 1 := ⟨n - 1, by
    have hpos : 0 < (TypeExpr.var span name).operand.length := Nat.succ_pos _
    omega⟩
  intro before qs s _ hs
  have hs' : s.Faces before (.word (.typeVar name.text) :: qs) := hs
  have hpeek : s.peek = .typeVar name.text := hs'.peek
  simp only [atomicType, yields_bind, yields_get, hs'.isOffside, hpeek, Bool.false_eq_true, if_false, yields_bump]
  exact ⟨hs'.advance.leaves rfl, rfl⟩

theorem typeFound_app {span : Span} {argument : TypeExpr} {ctor : LongIdent} (h : TypeFound argument) :
    TypeFound (.app span argument ctor) := by
  refine typeFound_of_whole rfl fun n hn => ?_
  have hlength : (TypeExpr.app span argument ctor).pieces.length = argument.operand.length + ctor.pieces.length :=
    List.length_append
  have hpos : 0 < ctor.pieces.length := Nat.succ_pos _
  obtain ⟨n, rfl⟩ : ∃ m, n = m + 4 := ⟨n - 4, by omega⟩
  refine type_finds (tupleType_finds ?_)
  intro before qs s hqs hs
  have hs : s.Faces before (argument.operand ++ (ctor.pieces ++ qs)) := by rwa [← List.append_assoc]
  simp only [suffixedType, yields_bind]
  refine (h.operand _ (by omega) _ _ s rfl hs).mono fun r s' ⟨hs', hr⟩ => ?_
  refine typeSuffixes_app hs' (endsName_of_endsSuffixes hqs) fun ctor' s'' hctor hs'' => ?_
  refine (typeSuffixes_stop _ _ (hs''.peek ▸ hqs) _).mpr ⟨hs'', ?_⟩
  exact congrArg₂ (TypeExpr.app (.empty 0)) hr hctor

theorem typeFound_array {span : Span} {element : TypeExpr} (h : TypeFound element) :
    TypeFound (.array span element) := by
  refine typeFound_of_whole rfl fun n hn => ?_
  have hlength : (TypeExpr.array span element).pieces.length = element.operand.length + 2 := List.length_append
  obtain ⟨n, rfl⟩ : ∃ m, n = m + 4 := ⟨n - 4, by omega⟩
  refine type_finds (tupleType_finds ?_)
  intro before qs s hqs hs
  have hs : s.Faces before (element.operand ++ (.punct .lbracket :: .punct .rbracket :: qs)) := by
    have happend : (TypeExpr.array span element).pieces ++ qs =
      element.operand ++ (.punct .lbracket :: .punct .rbracket :: qs) := List.append_assoc _ _ _
    rwa [happend] at hs
  simp only [suffixedType, yields_bind]
  refine (h.operand _ (by omega) _ _ s rfl hs).mono fun r s' ⟨hs', hr⟩ => ?_
  refine typeSuffixes_array rfl hs' fun span s'' hs'' => ?_
  exact (typeSuffixes_stop _ _ (hs''.peek ▸ hqs) _).mpr ⟨hs'', congrArg (TypeExpr.array (.empty 0)) hr⟩

theorem typeFound_function {span : Span} {domain codomain : TypeExpr} (hd : TypeFound domain) (hc : TypeFound codomain) :
    TypeFound (.function span domain codomain) := by
  refine typeFound_of_whole rfl fun n hn => ?_
  have hlength : (TypeExpr.function span domain codomain).pieces.length =
      domain.operand.length + (codomain.operand.length + 1) := List.length_append
  obtain ⟨n, rfl⟩ : ∃ m, n = m + 1 := ⟨n - 1, by omega⟩
  exact functionType_finds (hd.starred (by omega)) (hc.arrowed (by omega))

theorem typeFound_tuple {span : Span} (hlength : 2 ≤ types.length) (htypes : ∀ t ∈ types, TypeFound t) :
    TypeFound (.tuple span types) := by
  refine typeFound_of_whole rfl fun n hn => ?_
  have hpieces : (TypeExpr.tuple span types).pieces = [.operator .star].intercalate (types.map TypeExpr.operand) := by
    rw [TypeExpr.pieces, TypeExpr.operands_eq]
  rw [hpieces] at hn ⊢
  obtain ⟨n, rfl⟩ : ∃ m, n = m + 2 := ⟨n - 2, by omega⟩
  exact type_finds (tupleType_items_finds hlength (fun t ht n hn => (htypes t ht).suffixed hn) (by omega))

theorem typeFound {t : TypeExpr} (h : t.Built) : TypeFound t := by
  induction h with
  | named => exact typeFound_named
  | var => exact typeFound_var
  | app _ _ ha => exact typeFound_app ha
  | array _ he => exact typeFound_array he
  | function _ _ hd hc => exact typeFound_function hd hc
  | tuple hlength _ hitems => exact typeFound_tuple hlength hitems

/-! Patterns -/

def PatternFound (p : Pattern) : Prop := ∀ n, 8 * p.pieces.length ≤ n →
  (atomicPattern n).Rereads p.pieces (fun _ => True) fun r _ => r.unplaced = p.unplaced

variable {pattern : Pattern} {patterns : List Pattern}

theorem pattern_start (h : pattern.Built) : ∃ t ps, pattern.pieces = .word t :: ps ∧
    (t = .punct .lparen ∨ ∃ name, t = .ident name) := by
  cases h with
  | named | wildcard => exact ⟨_, _, rfl, .inr ⟨_, rfl⟩⟩
  | unit | tuple | typed => exact ⟨_, _, rfl, .inl rfl⟩

theorem notClosing_append (h : pattern.Built) (more qs : List Piece) :
    next (pattern.pieces ++ more ++ qs) ≠ .punct .rparen := by
  obtain ⟨t, ps, hps, ht⟩ := pattern_start h
  rw [hps]
  rintro (rfl : t = _)
  rcases ht with ht | ⟨name, ht⟩ <;> cases ht

theorem isError_of_unplaced {r : Pattern} (h : pattern.Built) (hr : r.unplaced = pattern.unplaced) :
    r.isError = false := by
  rw [← Pattern.isError_mapSpans (fun _ => .empty 0), ← Pattern.unplaced, hr, Pattern.unplaced,
    Pattern.isError_mapSpans]
  cases h <;> rfl

theorem annotatedPattern_rereads (h : PatternFound pattern) {n : Nat} (hn : 8 * pattern.pieces.length < n) :
    (annotatedPattern n).Rereads pattern.pieces (fun qs => next qs ≠ .punct .colon) fun r _ =>
      r.unplaced = pattern.unplaced := by
  obtain ⟨n, rfl⟩ : ∃ m, n = m + 1 := ⟨n - 1, by omega⟩
  intro before qs s hqs hs
  simp only [annotatedPattern, yields_bind]
  refine (h n (by omega) before qs s trivial hs).mono fun r s' ⟨hs', hr⟩ => ?_
  exact (yields_eat_none (hs'.peek ▸ hqs) _).mpr ⟨hs', hr⟩

theorem tuplePatternItems_stop (n : Nat) (item : Pattern) (h : s.peek ≠ .punct .comma)
    (Q : List Pattern → ParserState → Prop) : (tuplePatternItems n item).Yields s Q ↔ Q [] s := by
  cases n with
  | zero => exact Iff.rfl
  | succ n =>
    simp only [tuplePatternItems]
    split
    case isTrue => exact Iff.rfl
    case isFalse =>
      simp only [yields_bind, yields_eat_none h]
      exact Iff.rfl

/-- The items of a tuple pattern behind its first one. -/
theorem tuplePatternItems_resumes (hpatterns : ∀ p ∈ patterns, p.Built ∧ PatternFound p) (n : Nat) (item : Pattern)
    (hitem : item.isError = false) (hn : 8 * (patterns.flatMap fun p => .punct .comma :: p.pieces).length < n) :
    (tuplePatternItems n item).Resumes (patterns.flatMap fun p => .punct .comma :: p.pieces)
      (fun qs => next qs = .punct .rparen) fun rs _ => rs.map (·.unplaced) = patterns.map (·.unplaced) := by
  induction patterns generalizing n item with
  | nil =>
    intro qs s hqs hs
    have hlast : s.peek ≠ .punct .comma := by
      rw [hs.peek]
      exact hqs ▸ nofun
    exact (tuplePatternItems_stop _ _ hlast _).mpr ⟨hs, rfl⟩
  | cons p patterns ih =>
    obtain ⟨⟨hbuilt, hp⟩, hpatterns⟩ := List.forall_mem_cons.mp hpatterns
    rintro qs s hqs ⟨b, hb, hs⟩
    rw [List.flatMap_cons, List.length_append, List.length_cons] at hn
    rw [List.flatMap_cons, List.cons_append, List.cons_append, List.append_assoc] at hs
    obtain ⟨n, rfl⟩ : ∃ m, n = m + 1 := ⟨n - 1, by omega⟩
    have hcolon : next ((patterns.flatMap fun p => .punct .comma :: p.pieces) ++ qs) ≠ .punct .colon := by
      cases patterns with
      | nil => exact (congrArg (· ≠ Token.punct .colon) hqs).mpr nofun
      | cons => exact nofun
    have hpeek : s.peek = .punct .comma := hs.peek
    simp only [tuplePatternItems, hitem, Bool.false_eq_true, if_false, yields_bind, yields_eat_some hpeek]
    refine (annotatedPattern_rereads hp (by omega) _ _ _ hcolon hs.advance).mono fun r s' ⟨hs', hr⟩ => ?_
    have hrest := ih hpatterns n r (isError_of_unplaced hbuilt hr) (by omega) qs s' hqs hs'
    exact hrest.mono fun rs s'' ⟨hs'', hrs⟩ => ⟨hs'', congrArg₂ List.cons hr hrs⟩

/-- A pattern in parentheses, found from what is inside. -/
theorem atomicPattern_enclosed {n : Nat} (hstart : ∀ qs, next (ps ++ qs) ≠ .punct .rparen)
    (h : (tuplePattern n).Rereads ps (fun qs => next qs = .punct .rparen) fun r _ =>
      r.unplaced = pattern.unplaced) :
    (atomicPattern (n + 1)).Rereads (Piece.enclosed ps) (fun _ => True) fun r _ =>
      r.unplaced = pattern.unplaced := by
  intro before qs s _ hs
  rw [Piece.enclosed, List.cons_append, List.append_assoc, List.singleton_append] at hs
  have hopen : s.current.token = .punct .lparen := hs.current_token
  have hnone : s.advance.peek ≠ .punct .rparen := hs.advance.peek ▸ hstart _
  simp only [atomicPattern, yields_bind, yields_get, hopen, yields_skip, yields_eat_none hnone]
  refine (nested_rereads h _ _ _ rfl hs.advance).mono fun r s' ⟨⟨b, hb, hs'⟩, hr⟩ => ?_
  refine (yields_closing hs'.peek _ _).mpr ⟨hs'.advance.leaves rfl, ?_⟩
  exact (Pattern.unplaced_withSpan _ _).trans hr

theorem patternFound_tuple {span : Span} (hlength : 2 ≤ patterns.length)
    (hpatterns : ∀ p ∈ patterns, p.Built ∧ PatternFound p) : PatternFound (.tuple span patterns) := by
  intro n hn
  obtain ⟨first, second, patterns, rfl⟩ : ∃ first second more, patterns = first :: second :: more := by
    obtain ⟨first, rest, rfl⟩ := List.exists_cons_of_length_pos (Nat.lt_of_lt_of_le Nat.zero_lt_two hlength)
    obtain ⟨second, more, rfl⟩ := List.exists_cons_of_length_pos (Nat.le_of_succ_le_succ hlength)
    exact ⟨first, second, more, rfl⟩
  obtain ⟨⟨hbuilt, hfirst⟩, hpatterns⟩ := List.forall_mem_cons.mp hpatterns
  have hpieces : (Pattern.tuple span (first :: second :: patterns)).pieces = Piece.enclosed
      (first.pieces ++ (second :: patterns).flatMap fun p => .punct .comma :: p.pieces) := by
    rw [Pattern.pieces, Pattern.piecesOfAll_eq, List.map_cons, Piece.intercalate_cons, List.flatMap_map]
  have hmap : (Pattern.tuple span (first :: second :: patterns)).unplaced =
      .tuple (.empty 0) ((first :: second :: patterns).map (·.unplaced)) := Pattern.mapSpans_tuple _ _ _
  rw [hpieces, Piece.enclosed, List.length_cons, List.length_append, List.length_append] at hn
  obtain ⟨n, rfl⟩ : ∃ m, n = m + 2 := ⟨n - 2, by omega⟩
  rw [hpieces]
  refine atomicPattern_enclosed (notClosing_append hbuilt _) fun before qs s hqs hs => ?_
  rw [List.append_assoc] at hs
  simp only [tuplePattern, yields_bind]
  have hcomma : ∀ more, next (Piece.punct .comma :: more) ≠ .punct .colon := fun _ h => by cases h
  refine (annotatedPattern_rereads hfirst (by omega) _ _ s (hcomma _) hs).mono fun r s' h' => ?_
  obtain ⟨hs', hr⟩ := h'
  have hitems := tuplePatternItems_resumes hpatterns n r (isError_of_unplaced hbuilt hr) (by omega) qs s' hqs hs'
  refine hitems.mono fun rs s'' h'' => ?_
  obtain ⟨hs'', hrs⟩ := h''
  rw [hmap]
  split
  case h_1 => exact ⟨hs'', (Pattern.mapSpans_tuple _ _ _).trans (congrArg _ (congrArg₂ List.cons hr hrs))⟩
  case h_2 hnone =>
    rw [List.getLast?_eq_none_iff.mp hnone] at hrs
    cases hrs

theorem patternFound_typed {span : Span} {type : TypeExpr} (hbuilt : pattern.Built) (hpattern : PatternFound pattern)
    (htype : TypeFound type) : PatternFound (.typed span pattern type) := by
  intro n hn
  have hpieces : (Pattern.typed span pattern type).pieces =
      Piece.enclosed (pattern.pieces ++ .punct .colon :: type.pieces) := rfl
  rw [hpieces, Piece.enclosed, List.length_cons, List.length_append, List.length_append, List.length_cons] at hn
  obtain ⟨n, rfl⟩ : ∃ m, n = m + 3 := ⟨n - 3, by omega⟩
  rw [hpieces]
  refine atomicPattern_enclosed (notClosing_append hbuilt _) fun before qs s hqs hs => ?_
  rw [List.append_assoc] at hs
  simp only [tuplePattern, annotatedPattern, yields_bind]
  refine (hpattern n (by omega) _ _ s trivial hs).mono fun r s' ⟨⟨b, hb, hs'⟩, hr⟩ => ?_
  have hends : endsType (next qs) = true := by
    rw [hqs]
    rfl
  have hpeek : s'.peek = .punct .colon := hs'.peek
  simp only [yields_eat_some hpeek, yields_bind]
  refine (htype.whole n (by omega) _ _ _ hends hs'.advance).mono fun t s'' ⟨hs'', ht⟩ => ?_
  have hlast : s''.peek ≠ .punct .comma := by
    rw [hs''.peek, hqs]
    exact nofun
  simp only [yields_pure, tuplePatternItems_stop _ _ hlast]
  exact ⟨hs'', congrArg₂ (Pattern.typed (.empty 0)) hr ht⟩

theorem patternFound_of_step (hpos : 0 < pattern.pieces.length)
    (h : ∀ n, (atomicPattern (n + 1)).Rereads pattern.pieces (fun _ => True) fun r _ =>
      r.unplaced = pattern.unplaced) : PatternFound pattern := by
  intro n hn
  obtain ⟨n, rfl⟩ : ∃ m, n = m + 1 := ⟨n - 1, by omega⟩
  exact h n

theorem patternFound {p : Pattern} (h : p.Built) : PatternFound p := by
  induction h with
  | @named span name _ hname =>
    refine patternFound_of_step Nat.one_pos fun n before qs s _ hs => ?_
    have hs : s.Faces before (.ident name.text :: qs) := hs
    have htoken : s.current.token = .ident name.text := hs.current_token
    simp only [atomicPattern, yields_bind, yields_get, htoken, yields_skip, if_neg hname]
    exact ⟨hs.advance.leaves rfl, rfl⟩
  | wildcard =>
    refine patternFound_of_step Nat.one_pos fun n before qs s _ hs => ?_
    have hs : s.Faces before (.ident "_" :: qs) := hs
    have htoken : s.current.token = .ident "_" := hs.current_token
    simp only [atomicPattern, yields_bind, yields_get, htoken, yields_skip, if_true]
    exact ⟨hs.advance.leaves rfl, rfl⟩
  | unit =>
    refine patternFound_of_step Nat.two_pos fun n before qs s _ hs => ?_
    have hs : s.Faces before (.punct .lparen :: .punct .rparen :: qs) := hs
    have htoken : s.current.token = .punct .lparen := hs.current_token
    have hpeek : s.advance.peek = .punct .rparen := hs.advance.peek
    simp only [atomicPattern, yields_bind, yields_get, htoken, yields_skip, yields_eat_some hpeek]
    exact ⟨hs.advance.advance.leaves rfl, rfl⟩
  | tuple hlength hbuilt hitems => exact patternFound_tuple hlength fun p hp => ⟨hbuilt p hp, hitems p hp⟩
  | typed hp ht ih => exact patternFound_typed hp ih (typeFound ht)

/-- Parameters one after the other. -/
theorem params_resumes (hpatterns : ∀ p ∈ patterns, p.Built) (n : Nat)
    (hn : 8 * (patterns.flatMap Pattern.pieces).length < n) :
    (params n).Resumes (patterns.flatMap Pattern.pieces)
      (fun qs => (next qs).isIdent = false ∧ next qs ≠ .punct .lparen) fun rs _ =>
        rs.map (·.unplaced) = patterns.map (·.unplaced) := by
  induction patterns generalizing n with
  | nil =>
    rintro qs s ⟨hident, hparen⟩ hs
    obtain ⟨n, rfl⟩ : ∃ m, n = m + 1 := ⟨n - 1, by omega⟩
    rw [← (show s.peek = next qs from hs.peek)] at hident hparen
    simp only [params, yields_bind, yields_get]
    split
    case h_1 name hpeek =>
      rw [hpeek] at hident
      cases hident
    case h_2 hpeek => exact absurd hpeek hparen
    case h_3 => exact ⟨hs, rfl⟩
  | cons p patterns ih =>
    obtain ⟨hp, hpatterns⟩ := List.forall_mem_cons.mp hpatterns
    rintro qs s hqs ⟨b, hb, hs⟩
    rw [List.flatMap_cons, List.length_append] at hn
    rw [List.flatMap_cons, List.append_assoc] at hs
    obtain ⟨t, ps, hps, ht⟩ := pattern_start hp
    have hpos : 0 < p.pieces.length := by
      rw [hps]
      exact Nat.succ_pos _
    obtain ⟨n, rfl⟩ : ∃ m, n = m + 1 := ⟨n - 1, by omega⟩
    have hpeek : s.peek = t := by
      rw [hs.peek, hps]
      rfl
    have hplain : s.isOffside = false := by
      rw [hps] at hs
      exact hs.isOffside
    have hread := patternFound hp n (by omega) b _ s trivial hs
    -- a parameter starts with a name or a parenthesis, and both ways the loop goes on like this
    have hboth : (do
        let p ← atomicPattern n
        let ps ← params n
        return p :: ps : Parser (List Pattern)).Yields s fun rs s' =>
          s'.Leaves qs ∧ rs.map (·.unplaced) = (p :: patterns).map (·.unplaced) := by
      simp only [yields_bind]
      refine hread.mono fun r s' ⟨hs', hr⟩ => ?_
      refine (ih hpatterns n (by omega) qs s' hqs hs').mono fun rs s'' ⟨hs'', hrs⟩ => ⟨hs'', ?_⟩
      exact congrArg₂ List.cons hr hrs
    simp only [params, yields_bind, yields_get, hpeek]
    rcases ht with rfl | ⟨name, rfl⟩
    all_goals
      simp only [hplain]
      exact hboth

end Parser
end ScriptAnalyzer

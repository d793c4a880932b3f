import ScriptAnalyzer.Typing.Ty
import ScriptAnalyzer.Proofs.Syntax.Rereading

/-!
Files of one line, a declaration that starts with a keyword.

Types written with as few parentheses as the grammar needs: what binds less tightly than its place stands in
parentheses. The parser reads such a type back.
-/

namespace ScriptAnalyzer
namespace Parser

open ParserState

variable {k : Keyword} {ps : List Piece} {s : ParserState} {n : Nat} {P : Decl → Prop}

/-- The only line of a file is left to read: a keyword, and the pieces behind it. -/
structure AtLine (k : Keyword) (ps : List Piece) (s : ParserState) : Prop where
  rest : ∃ t ts, s.rest = t :: ts ∧ t.token = .keyword k ∧ t.lineStart = true ∧
    Piece.Laid (.keyword k) t.span.stop ps ts
  errors : s.errors = []

namespace AtLine

theorem atEnd (hs : AtLine k ps s) : s.atEnd = false := by
  obtain ⟨t, ts, hrest, -⟩ := hs.rest
  rw [ParserState.atEnd, hrest]
  rfl

theorem peek (hs : AtLine k ps s) : s.peek = .keyword k := by
  obtain ⟨t, ts, hrest, htoken, -⟩ := hs.rest
  rw [ParserState.peek, current, hrest]
  exact htoken

theorem lineStart (hs : AtLine k ps s) : s.current.lineStart = true := by
  obtain ⟨t, ts, hrest, -, hline, -⟩ := hs.rest
  rw [current, hrest]
  exact hline

theorem length (hs : AtLine k ps s) : s.rest.length = ps.length + 1 := by
  obtain ⟨t, ts, hrest, -, -, hlaid⟩ := hs.rest
  rw [hrest, List.length_cons, hlaid.length]

theorem faces (hs : AtLine k ps s) : s.advance.Faces (.keyword k) ps := by
  obtain ⟨t, ts, hrest, -, -, hlaid⟩ := hs.rest
  rw [ParserState.advance, hrest]
  exact ⟨hlaid, hs.errors⟩

end AtLine

theorem yields_synchronize (h : s.rest = []) (column : Nat) (Q : Unit → ParserState → Prop) :
    (synchronize column).Yields s Q ↔ Q () s := by
  obtain ⟨rest, size, prevEnd, offside, anchor, nesting, kind, errors⟩ := s
  subst h
  exact Iff.rfl

theorem decls_end (h : s.rest = []) (n column : Nat) (Q : List Decl → ParserState → Prop) :
    (decls n column).Yields s Q ↔ Q [] s := by
  cases n with
  | zero =>
    rw [decls]
    exact Iff.rfl
  | succ n =>
    have hend : s.beforeColumn column = true := by
      rw [beforeColumn, ParserState.atEnd, h]
      rfl
    rw [decls]
    simp only [yields_bind, yields_get, hend, if_true]
    exact Iff.rfl

/-- At the start of a line a declaration is read that nothing stands behind. -/
theorem decls_only {Q : Decl → ParserState → Prop} (hend : s.atEnd = false) (hline : s.current.lineStart = true)
    (h : (decl n s.current.column).Yields { s with anchor := some s.rest.length } fun d s' => s'.rest = [] ∧ Q d s') :
    (decls (n + 1) s.current.column).Yields s fun ds s' => ∃ d, ds = [d] ∧ Q d s' := by
  have hbefore : s.beforeColumn s.current.column = false := by
    rw [beforeColumn, hend, Bool.false_or, Bool.and_eq_false_iff]
    exact .inr (decide_eq_false (Nat.lt_irrefl _))
  rw [decls]
  simp only [yields_bind, yields_get, hbefore, hline, Nat.lt_irrefl, decide_false, Bool.not_true, Bool.or_self,
    Bool.false_eq_true, if_false, yields_setAnchor]
  refine h.mono fun d s' h' => ?_
  obtain ⟨hrest, hd⟩ := h'
  have hread : s'.rest.length ≠ s.rest.length := by
    intro hlength
    rw [hrest, List.length_nil] at hlength
    rw [ParserState.atEnd, List.isEmpty_iff_length_eq_zero.mpr hlength.symm] at hend
    cases hend
  have hline' : s'.current.lineStart = true := by
    rw [current, hrest]
    rfl
  simp only [ifStuck, Parser.when, yields_bind, yields_get, if_neg hread, yields_pure, hline', Bool.not_true,
    Bool.false_eq_true, if_false, yields_synchronize hrest, decls_end hrest]
  exact ⟨d, rfl, hd⟩

/-- The parser reads the whole line as one declaration, of which `P` holds. -/
def ReadsLine (k : Keyword) (ps : List Piece) (P : Decl → Prop) (n : Nat) : Prop :=
  ∀ column s, AtLine k ps s → (decl n column).Yields s fun d s' => s'.Leaves [] ∧ P d

theorem decls_line (h : ReadsLine k ps P n) (hs : AtLine k ps s) :
    (decls (n + 1) s.current.column).Yields s fun r s' => ∃ d, r = [d] ∧ s'.errors = [] ∧ P d := by
  refine decls_only hs.atEnd hs.lineStart ?_
  have hanchor : AtLine k ps { s with anchor := some s.rest.length } := ⟨hs.rest, hs.errors⟩
  exact (h _ _ hanchor).mono fun d s' ⟨⟨before, _, hs'⟩, hd⟩ => ⟨hs'.rest_nil, hs'.errors, hd⟩

theorem file_line (hk : k ≠ .moduleKw) (h : ReadsLine k ps P n) (hs : AtLine k ps s) :
    (file (n + 1)).Yields s fun r s' => s'.errors = [] ∧ ∃ d, r = (none, [d]) ∧ P d := by
  have hheader : s.peek ≠ .keyword .moduleKw := by
    rw [hs.peek]
    exact fun h => hk (Token.keyword.inj h)
  have hoffside : AtLine k ps { s with offside := s.current.column } := ⟨hs.rest, hs.errors⟩
  simp only [file, header, yields_bind, yields_get, if_pos hheader, yields_pure, yields_withOffside]
  refine (decls_line h hoffside).mono fun r s' ⟨d, hr, herrors, hd⟩ => ?_
  exact ⟨herrors, d, congrArg (Prod.mk none) hr, hd⟩

end Parser

namespace SyntaxFile

/-- A file of one line that the parser reads as one declaration has this declaration and no errors. -/
theorem parse_line {k : Keyword} {ps : List Piece} {P : Decl → Prop} (hps : Piece.Legible ps) (hk : k ≠ .moduleKw)
    (h : ∀ n, 32 * ps.length + 64 ≤ n → Parser.ReadsLine k ps P n) (path : Path) (kind : SourceKind)
    (defines : List String) : let f := parse path (Piece.line (.keyword k :: ps)) kind defines
    f.errors = [] ∧ f.header = none ∧ ∃ d, f.decls = [d] ∧ P d := by
  have hlegible : Piece.Legible (.keyword k :: ps) := Piece.legible_cons.mpr ⟨.keyword _, hps⟩
  obtain ⟨u, us, htokens, htoken, hline, hlaid⟩ := Piece.significantTokens_line hlegible defines
  have hstart : Parser.AtLine k ps (start (Piece.line (.keyword k :: ps)) kind defines) := by
    rw [start, htokens]
    exact ⟨⟨u, us, rfl, htoken, hline, hlaid⟩, rfl⟩
  obtain ⟨n, hn⟩ : ∃ n, depthBound (start (Piece.line (.keyword k :: ps)) kind defines).rest.length = n + 1 :=
    ⟨32 * ps.length + 95, by rw [hstart.length, depthBound]; omega⟩
  have hread := Parser.file_line hk (h n (by rw [hstart.length, depthBound] at hn; omega)) hstart
  rw [← hn] at hread
  obtain ⟨herrors, d, hr, hd⟩ := hread
  refine ⟨?_, congrArg Prod.fst hr, d, congrArg Prod.snd hr, hd⟩
  exact (congrArg (List.mergeSort · SyntaxError.le) herrors).trans List.mergeSort_nil

end SyntaxFile

/-! Types -/

open Piece (grouped)

/-- The tokens that a type starts with. -/
def Token.startsType : Token → Bool
  | .ident _ | .typeVar _ | .punct .lparen => true
  | _ => false

namespace Piece

open Token (opens startsType)

variable {before t : Token} {ps qs : List Piece} {text text' : Text}

/-- The pieces start like a type and are written as the text, whatever stands behind them. -/
structure Spells (ps : List Piece) (text : Text) : Prop where
  start : ∃ t more, ps = .word t :: more ∧ startsType t = true
  whole : ∀ qs, ∃ last, opens last = false ∧ line (ps ++ qs) = text ++ written last qs

theorem written_apart (hbefore : opens before = false) (ht : follows t = false) (ps : List Piece) :
    written before (.word t :: ps) = ' ' :: line (.word t :: ps) := by
  have hadjoins : adjoins before t = false := Bool.eq_false_iff.mpr (mt adjoins_opens (Bool.eq_false_iff.mp hbefore))
  rw [written, spaced, ht, hadjoins]
  rfl

theorem not_follows_of_startsType (h : startsType t = true) : follows t = false := by
  unfold follows
  split
  all_goals first | rfl | cases h

namespace Spells

theorem behind (h : Spells ps text) (before : Token) (hbefore : opens before = false) (qs : List Piece) :
    ∃ last, opens last = false ∧ written before (ps ++ qs) = ' ' :: text ++ written last qs := by
  obtain ⟨last, hlast, hline⟩ := h.whole qs
  obtain ⟨t, more, rfl, ht⟩ := h.start
  refine ⟨last, hlast, ?_⟩
  rw [List.cons_append, written_apart hbefore (not_follows_of_startsType ht), ← List.cons_append, hline]
  rfl

theorem word (hstart : startsType t = true) (hopens : opens t = false) : Spells [.word t] t.text.toList :=
  ⟨⟨t, [], rfl, hstart⟩, fun _ => ⟨t, hopens, rfl⟩⟩

theorem enclosed (h : Spells ps text) : Spells (Piece.enclosed ps) ('(' :: text ++ [')']) := by
  refine ⟨⟨_, _, rfl, rfl⟩, fun qs => ⟨.punct .rparen, rfl, ?_⟩⟩
  obtain ⟨last, -, hline⟩ := h.whole (.punct .rparen :: qs)
  obtain ⟨t, more, rfl, ht⟩ := h.start
  have hadjoins : adjoins (.punct .lparen) t = true := by
    unfold startsType at ht
    split at ht
    case h_4 => cases ht
    all_goals rfl
  have hopened : written (.punct .lparen) (.word t :: more ++ .punct .rparen :: qs) =
      line (.word t :: more ++ .punct .rparen :: qs) := by
    rw [List.cons_append, written, spaced, hadjoins, Bool.not_true, Bool.and_false, if_neg Bool.false_ne_true]
    rfl
  calc line (Piece.enclosed (.word t :: more) ++ qs)
      = '(' :: written (.punct .lparen) (.word t :: more ++ .punct .rparen :: qs) := by
        rw [Piece.enclosed, List.cons_append, List.append_assoc]
        rfl
    _ = '(' :: (text ++ ')' :: written (.punct .rparen) qs) := by
        rw [hopened, hline]
        rfl
    _ = '(' :: text ++ [')'] ++ written (.punct .rparen) qs := by simp

theorem grouped (h : Spells ps text) (atomic : Bool) :
    Spells (Piece.grouped atomic ps) (Ty.parenthesize (!atomic) text) := by
  cases atomic with
  | false => exact h.enclosed
  | true => exact h

theorem suffix (h : Spells ps text) (name : String) : Spells (ps ++ [.ident name]) (text ++ ' ' :: name.toList) := by
  obtain ⟨t, more, rfl, ht⟩ := h.start
  refine ⟨⟨t, more ++ [.ident name], rfl, ht⟩, fun qs => ⟨.ident name, rfl, ?_⟩⟩
  obtain ⟨last, hlast, hline⟩ := h.whole (.ident name :: qs)
  have hname : written last (.ident name :: qs) = ' ' :: line (.ident name :: qs) := written_apart hlast rfl qs
  rw [List.append_assoc, List.singleton_append, hline, hname]
  simp only [List.append_assoc, List.cons_append]
  rfl

theorem brackets (h : Spells ps text) :
    Spells (ps ++ [.elementBracket, .punct .rbracket]) (text ++ ['[', ']']) := by
  obtain ⟨t, more, rfl, ht⟩ := h.start
  refine ⟨⟨t, more ++ [.elementBracket, .punct .rbracket], rfl, ht⟩, fun qs => ⟨.punct .rbracket, rfl, ?_⟩⟩
  obtain ⟨last, -, hline⟩ := h.whole ([.elementBracket, .punct .rbracket] ++ qs)
  rw [List.append_assoc, hline, List.append_assoc]
  rfl

theorem joined (h : Spells ps text) (o : Operator) (h' : Spells qs text') :
    Spells (ps ++ .operator o :: qs) (text ++ ' ' :: (o.text.toList ++ ' ' :: text')) := by
  obtain ⟨t, more, rfl, ht⟩ := h.start
  refine ⟨⟨t, more ++ .operator o :: qs, rfl, ht⟩, fun rest => ?_⟩
  obtain ⟨last, hlast, hline⟩ := h.whole (.operator o :: (qs ++ rest))
  obtain ⟨last', hlast', hbehind⟩ := h'.behind (.operator o) rfl rest
  have hoperator : written last (.operator o :: (qs ++ rest)) =
      ' ' :: (o.text.toList ++ written (.operator o) (qs ++ rest)) :=
    written_apart hlast rfl _
  refine ⟨last', hlast', ?_⟩
  have hassoc (ps : List Piece) : ps ++ .operator o :: qs ++ rest = ps ++ .operator o :: (qs ++ rest) :=
    List.append_assoc ..
  rw [hassoc, hline, hoperator, hbehind]
  simp only [List.append_assoc, List.cons_append]

theorem joinedAll {α : Type} {xs : List α} {f : α → List Piece} {g : α → Text} (o : Operator)
    (h : Spells ps text) (hxs : ∀ x ∈ xs, Spells (f x) (g x)) : Spells (ps ++ xs.flatMap fun x => .operator o :: f x)
      (text ++ xs.flatMap fun x => ' ' :: (o.text.toList ++ ' ' :: g x)) := by
  induction xs generalizing ps text with
  | nil => simpa using h
  | cons x xs ih =>
    obtain ⟨hx, hxs⟩ := List.forall_mem_cons.mp hxs
    rw [List.flatMap_cons, List.flatMap_cons, ← List.append_assoc, ← List.append_assoc]
    exact ih (h.joined o hx) hxs

end Spells
end Piece

namespace TypeExpr

/-- Whether the type stands at the place without parentheses. -/
def fits : Ty.Place → TypeExpr → Bool
  | .outermost, _ => true
  | .parameter, function _ _ _ => false
  | .item, function _ _ _ | .item, tuple _ _ => false
  | .argument, function _ _ _ | .argument, tuple _ _ => false
  | _, _ => true

mutual

/-- The type by itself. -/
def bare : TypeExpr → List Piece
  | named _ n => n.pieces
  | var _ n => [.word (.typeVar n.text)]
  | app _ a c => grouped (a.fits .argument) (bare a) ++ c.pieces
  | array _ e => grouped (e.fits .argument) (bare e) ++ [.elementBracket, .punct .rbracket]
  | function _ d c => grouped (d.fits .parameter) (bare d) ++ .operator .arrow :: bare c
  | tuple _ items => [.operator .star].intercalate (bareItems items)
  | error _ => []

def bareItems : List TypeExpr → List (List Piece)
  | [] => []
  | t :: ts => grouped (t.fits .item) (bare t) :: bareItems ts

end

/-- The type at a place. -/
def shown (place : Ty.Place) (t : TypeExpr) : List Piece := grouped (t.fits place) t.bare

theorem bareItems_eq (ts : List TypeExpr) : bareItems ts = ts.map (shown .item) := by
  induction ts with
  | nil => rfl
  | cons t ts ih => rw [bareItems, ih, List.map_cons, shown]

theorem bare_tuple (s : Span) (t : TypeExpr) (ts : List TypeExpr) :
    (tuple s (t :: ts)).bare = t.shown .item ++ ts.flatMap fun t => .operator .star :: t.shown .item := by
  rw [bare, bareItems_eq, List.map_cons, Piece.intercalate_cons, List.flatMap_map]

theorem shown_item (t : TypeExpr) : t.shown .item = t.shown .argument := by
  cases t <;> rfl

theorem Built.legible_bare {t : TypeExpr} (h : t.Built) : Piece.Legible t.bare := by
  induction h with
  | named hn => exact hn.legible
  | var hn => exact Piece.legible_singleton.mpr (.typeVar hn)
  | app _ hc ha => exact Piece.legible_append.mpr ⟨Piece.legible_grouped ha _, hc.legible⟩
  | array _ he =>
    refine Piece.legible_append.mpr ⟨Piece.legible_grouped he _, ?_⟩
    exact Piece.legible_cons.mpr ⟨.punct _, Piece.legible_singleton.mpr (.punct _)⟩
  | function _ _ hd hc =>
    exact Piece.legible_append.mpr ⟨Piece.legible_grouped hd _, Piece.legible_cons.mpr ⟨.operator _, hc⟩⟩
  | tuple _ _ hitems =>
    rw [bare, bareItems_eq]
    exact Piece.legible_intercalate (fun t ht => Piece.legible_grouped (hitems t ht) _) (.operator _)

theorem Built.bare_start {t : TypeExpr} (h : t.Built) :
    ∃ u more, t.bare = .word u :: more ∧ u.startsType = true := by
  have hshown {t : TypeExpr} (place : Ty.Place) (rest : List Piece)
      (h : ∃ u more, t.bare = .word u :: more ∧ u.startsType = true) :
      ∃ u more, t.shown place ++ rest = .word u :: more ∧ u.startsType = true := by
    rw [shown]
    cases t.fits place with
    | false => exact ⟨_, _, rfl, rfl⟩
    | true =>
      obtain ⟨u, more, hbare, hu⟩ := h
      exact ⟨u, more ++ rest, congrArg (· ++ rest) hbare, hu⟩
  induction h with
  | named => exact ⟨_, _, rfl, rfl⟩
  | var => exact ⟨_, _, rfl, rfl⟩
  | app _ _ ha => exact hshown .argument _ ha
  | array _ he => exact hshown .argument _ he
  | function _ _ hd _ => exact hshown .parameter _ hd
  | @tuple _ items hlength _ hitems =>
    obtain ⟨first, items, rfl⟩ := List.exists_cons_of_ne_nil (List.ne_nil_of_length_pos (by omega : 0 < items.length))
    rw [bare_tuple]
    exact hshown .item _ (hitems first List.mem_cons_self)

end TypeExpr

namespace Parser

open ParserState
open Piece (next)

variable {s : ParserState} {ps qs : List Piece} {n : Nat} {type : TypeExpr} {types : List TypeExpr}

/-- The parser finds the type and goes on with the suffixes behind it. -/
def FindsStem (ps : List Piece) (type : TypeExpr) : Prop :=
  ∀ n before qs s Q, 8 * ps.length < n → endsName (next qs) = true → s.Faces before (ps ++ qs) →
    (∀ r m s', r.unplaced = type.unplaced → n ≤ m + ps.length → s'.Leaves qs → (typeSuffixes m r).Yields s' Q) →
    (suffixedType n).Yields s Q

theorem findsStem_of_atomic (hps : ps ≠ [])
    (h : ∀ n, 8 * ps.length ≤ n → FindsType (atomicType n) ps endsName type) : FindsStem ps type := by
  intro n before qs s Q hn hqs hs hmore
  have hpos := List.length_pos_iff.mpr hps
  obtain ⟨n, rfl⟩ : ∃ m, n = m + 1 := ⟨n - 1, by omega⟩
  simp only [suffixedType, yields_bind]
  exact (h n (by omega) before qs s hqs hs).mono fun r s' h' => hmore r n s' h'.2 (by omega) h'.1

theorem FindsStem.suffixed (h : FindsStem ps type) (hn : 8 * ps.length < n) :
    FindsType (suffixedType n) ps endsSuffixes type := by
  intro before qs s hqs hs
  refine h n before qs s _ hn (endsName_of_endsSuffixes hqs) hs fun r m s' hr _ hs' => ?_
  exact (typeSuffixes_stop _ _ (hs'.peek ▸ hqs) _).mpr ⟨hs', hr⟩

/-- How the parser finds a type at each place, for every bound on the recursion that is large enough. -/
structure TypeShown (type : TypeExpr) : Prop where
  stem : FindsStem (type.shown .argument) type
  tupled : ∀ n, 8 * (type.shown .parameter).length + 2 ≤ n →
    FindsType (tupleType n) (type.shown .parameter) endsTupleType type
  whole : ∀ n, 8 * type.bare.length + 8 ≤ n → FindsType (Parser.type n) type.bare endsType type

/-- A type that needs no parentheses anywhere. -/
theorem typeShown_of_stem (hfits : ∀ place, type.fits place = true) (h : FindsStem type.bare type) :
    TypeShown type := by
  have hshown (place : Ty.Place) : type.shown place = type.bare := if_pos (hfits place)
  have htupled (n : Nat) (hn : 8 * type.bare.length + 2 ≤ n) :
      FindsType (tupleType n) type.bare endsTupleType type := by
    obtain ⟨n, rfl⟩ : ∃ m, n = m + 1 := ⟨n - 1, by omega⟩
    exact tupleType_finds (h.suffixed (by omega))
  refine ⟨hshown _ ▸ h, fun n hn => ?_, fun n hn => ?_⟩
  · rw [hshown] at hn ⊢
    exact htupled n hn
  · obtain ⟨n, rfl⟩ : ∃ m, n = m + 1 := ⟨n - 1, by omega⟩
    exact type_finds (htupled n (by omega))

/-- A type in parentheses. -/
theorem findsStem_enclosed (h : ∀ n, 8 * ps.length + 8 ≤ n → FindsType (Parser.type n) ps endsType type) :
    FindsStem (Piece.enclosed ps) type := by
  refine findsStem_of_atomic (List.cons_ne_nil _ _) fun n hn => ?_
  rw [Piece.enclosed, List.length_cons, List.length_append, List.length_singleton] at hn
  obtain ⟨n, rfl⟩ : ∃ m, n = m + 1 := ⟨n - 1, by omega⟩
  exact atomicType_enclosed (h n (by omega))

theorem typeShown_named {span : Span} {name : LongIdent} : TypeShown (.named span name) :=
  typeShown_of_stem (fun place => by cases place <;> rfl)
    (findsStem_of_atomic (List.cons_ne_nil _ _) typeFound_named.operand)

theorem typeShown_var {span : Span} {name : Ident} : TypeShown (.var span name) :=
  typeShown_of_stem (fun place => by cases place <;> rfl)
    (findsStem_of_atomic (List.cons_ne_nil _ _) typeFound_var.operand)

theorem typeShown_app {span : Span} {argument : TypeExpr} {ctor : LongIdent} (h : TypeShown argument) :
    TypeShown (.app span argument ctor) := by
  refine typeShown_of_stem (fun place => by cases place <;> rfl) fun n before qs s Q hn hqs hs hmore => ?_
  have hbare : (TypeExpr.app span argument ctor).bare = argument.shown .argument ++ ctor.pieces := rfl
  have hpos : 0 < ctor.pieces.length := Nat.succ_pos _
  rw [hbare, List.length_append] at hn hmore
  rw [hbare, List.append_assoc] at hs
  refine h.stem n before _ s Q (by omega) rfl hs fun r m s' hr hm hs' => ?_
  obtain ⟨m, rfl⟩ : ∃ k, m = k + 1 := ⟨m - 1, by omega⟩
  refine typeSuffixes_app hs' hqs fun ctor' s'' hctor hs'' => ?_
  exact hmore _ m s'' (congrArg₂ (TypeExpr.app (.empty 0)) hr hctor) (by omega) hs''

theorem typeShown_array {span : Span} {element : TypeExpr} (h : TypeShown element) :
    TypeShown (.array span element) := by
  refine typeShown_of_stem (fun place => by cases place <;> rfl) fun n before qs s Q hn _ hs hmore => ?_
  have hbare : (TypeExpr.array span element).bare =
      element.shown .argument ++ [.elementBracket, .punct .rbracket] := rfl
  rw [hbare, List.length_append, List.length_cons, List.length_singleton] at hn hmore
  rw [hbare, List.append_assoc] at hs
  refine h.stem n before _ s Q (by omega) rfl hs fun r m s' hr hm hs' => ?_
  obtain ⟨m, rfl⟩ : ∃ k, m = k + 1 := ⟨m - 1, by omega⟩
  refine typeSuffixes_array rfl hs' fun span s'' hs'' => ?_
  exact hmore _ m s'' (congrArg (TypeExpr.array (.empty 0)) hr) (by omega) hs''

/-- A type that needs parentheses inside of other types. -/
theorem typeShown_of_whole (hfits : type.fits .argument = false)
    (htupled : ∀ n, 8 * (type.shown .parameter).length + 2 ≤ n → FindsStem (type.shown .argument) type →
      FindsType (tupleType n) (type.shown .parameter) endsTupleType type)
    (hwhole : ∀ n, 8 * type.bare.length + 8 ≤ n → FindsType (Parser.type n) type.bare endsType type) :
    TypeShown type := by
  have hshown : type.shown .argument = Piece.enclosed type.bare := if_neg (by simp [hfits])
  have hstem : FindsStem (type.shown .argument) type := hshown ▸ findsStem_enclosed hwhole
  exact ⟨hstem, fun n hn => htupled n hn hstem, hwhole⟩

theorem typeShown_function {span : Span} {domain codomain : TypeExpr} (hd : TypeShown domain)
    (hc : TypeShown codomain) : TypeShown (.function span domain codomain) := by
  have hbare : (TypeExpr.function span domain codomain).bare =
      domain.shown .parameter ++ .operator .arrow :: codomain.bare := rfl
  refine typeShown_of_whole rfl (fun n hn hstem => ?_) fun n hn => ?_
  · obtain ⟨n, rfl⟩ : ∃ m, n = m + 1 := ⟨n - 1, by omega⟩
    exact tupleType_finds (hstem.suffixed (Nat.lt_of_succ_le (Nat.le_of_succ_le_succ hn)))
  · rw [hbare, List.length_append, List.length_cons] at hn
    obtain ⟨n, rfl⟩ : ∃ m, n = m + 1 := ⟨n - 1, by omega⟩
    exact functionType_finds (hd.tupled n (by omega)) (hc.whole n (by omega))

theorem typeShown_tuple {span : Span} (hlength : 2 ≤ types.length) (htypes : ∀ t ∈ types, TypeShown t) :
    TypeShown (.tuple span types) := by
  have hbare : (TypeExpr.tuple span types).bare =
      [.operator .star].intercalate (types.map (TypeExpr.shown .item)) := by
    rw [TypeExpr.bare, TypeExpr.bareItems_eq]
  have hitems : ∀ t ∈ types, ∀ n, 8 * (t.shown .item).length < n →
      FindsType (suffixedType n) (t.shown .item) endsSuffixes t := fun t ht n hn => by
    rw [t.shown_item] at hn ⊢
    exact (htypes t ht).stem.suffixed hn
  have htupled (n : Nat) (hn : 8 * (TypeExpr.tuple span types).bare.length + 2 ≤ n) :
      FindsType (tupleType n) (TypeExpr.tuple span types).bare endsTupleType (.tuple span types) := by
    rw [hbare] at hn ⊢
    obtain ⟨n, rfl⟩ : ∃ m, n = m + 1 := ⟨n - 1, by omega⟩
    exact tupleType_items_finds hlength hitems (by omega)
  refine typeShown_of_whole rfl (fun n hn _ => htupled n hn) fun n hn => ?_
  obtain ⟨n, rfl⟩ : ∃ m, n = m + 1 := ⟨n - 1, by omega⟩
  exact type_finds (htupled n (by omega))

/-- The parser finds every type that has a text. -/
theorem typeShown {t : TypeExpr} (h : t.Built) : TypeShown t := by
  induction h with
  | named => exact typeShown_named
  | var => exact typeShown_var
  | app _ _ ha => exact typeShown_app ha
  | array _ he => exact typeShown_array he
  | function _ _ hd hc => exact typeShown_function hd hc
  | tuple hlength _ hitems => exact typeShown_tuple hlength hitems

/-- A type abbreviation is read as such. -/
theorem abbreviation_reads (h : type.Built) (name : String) (hn : 8 * type.bare.length + 9 ≤ n) :
    ReadsLine .typeKw (.ident name :: .operator .eq :: type.bare) (fun d => ∃ place ident written,
      d = .type place ident (.abbreviation written) ∧ ident.text = name ∧ written.unplaced = type.unplaced) n := by
  intro column s hs
  obtain ⟨n, rfl⟩ : ∃ m, n = m + 1 := ⟨n - 1, by omega⟩
  have hname : s.advance.peek = .ident name := hs.faces.peek
  have heq : s.advance.advance.peek = .operator .eq := hs.faces.advance.peek
  have hfaces := hs.faces.advance.advance
  have hbrace : s.advance.advance.advance.peek ≠ .punct .lbrace := by
    obtain ⟨u, more, hbare, hu⟩ := h.bare_start
    rw [hfaces.peek, hbare]
    rintro (rfl : u = _)
    cases hu
  rw [← List.append_nil type.bare] at hfaces
  simp only [decl, yields_bind, yields_get, hs.peek, typeDecl, yields_skip, yields_ident? hname, expect,
    yields_eat_some heq, if_neg hbrace, yields_pure]
  refine ((typeShown h).whole n (by omega) _ _ _ rfl hfaces).mono fun r s' h' => ?_
  obtain ⟨hs', hr⟩ := h'
  exact ⟨hs', _, _, r, rfl, rfl, hr⟩

end Parser

namespace SyntaxFile

/-- Writing a type with as few parentheses as needed and parsing an abbreviation of it yields the type, up to places,
and no errors. -/
theorem parse_abbreviation {t : TypeExpr} (h : t.Built) {name : String} (hname : Token.isName name = true)
    (path : Path) (kind : SourceKind) (defines : List String) :
    let f := parse path (Piece.line (.keyword .typeKw :: .ident name :: .operator .eq :: t.bare)) kind defines
    f.errors = [] ∧ ∃ place ident written, f.decls = [.type place ident (.abbreviation written)] ∧
      ident.text = name ∧ written.unplaced = t.unplaced := by
  have hlegible : Piece.Legible (.ident name :: .operator .eq :: t.bare) :=
    Piece.legible_cons.mpr ⟨.ident hname, Piece.legible_cons.mpr ⟨.operator _, h.legible_bare⟩⟩
  have hreads (n : Nat) (hn : 32 * (t.bare.length + 2) + 64 ≤ n) :=
    Parser.abbreviation_reads h name (n := n) (by omega)
  obtain ⟨herrors, -, d, hdecls, place, ident, written, rfl, htext, hwritten⟩ :=
    parse_line hlegible (by decide) hreads path kind defines
  exact ⟨herrors, place, ident, written, hdecls, htext, hwritten⟩

end SyntaxFile

end ScriptAnalyzer

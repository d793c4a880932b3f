import ScriptAnalyzer.Proofs.Syntax.Spans
import ScriptAnalyzer.Proofs.Token.Writing
import ScriptAnalyzer.Syntax.Parser.Expr

/-!
Expressions written on one line. Every operand but a literal, a name and an annotation, which has parentheses of its
own, stands in parentheses.
-/

namespace ScriptAnalyzer

namespace Piece

def ident (name : String) : Piece := word (.ident name)

def keyword (k : Keyword) : Piece := word (.keyword k)

def operator (o : Operator) : Piece := word (.operator o)

def punct (p : Punct) : Piece := word (.punct p)

def enclosed (ps : List Piece) : List Piece := punct .lparen :: (ps ++ [punct .rparen])

/-- What stands in parentheses unless it is atomic. -/
def grouped (atomic : Bool) (ps : List Piece) : List Piece := if atomic then ps else enclosed ps

end Piece

open Piece (grouped enclosed)

/-! How trees are written -/

def LongIdent.pieces (n : LongIdent) : List Piece :=
  .ident n.head.text :: n.tail.flatMap fun i => [.punct .dot, .ident i.text]

namespace TypeExpr

def isAtomic : TypeExpr → Bool
  | named _ _ | var _ _ => true
  | _ => false

mutual

def pieces : TypeExpr → List Piece
  | named _ n => n.pieces
  | var _ n => [.word (.typeVar n.text)]
  | app _ a c => grouped a.isAtomic (pieces a) ++ c.pieces
  | array _ e => grouped e.isAtomic (pieces e) ++ [.punct .lbracket, .punct .rbracket]
  | function _ d c => grouped d.isAtomic (pieces d) ++ .operator .arrow :: grouped c.isAtomic (pieces c)
  | tuple _ items => [.operator .star].intercalate (operands items)
  | error _ => []

def operands : List TypeExpr → List (List Piece)
  | [] => []
  | t :: ts => grouped t.isAtomic (pieces t) :: operands ts

end

def operand (t : TypeExpr) : List Piece := grouped t.isAtomic t.pieces

theorem operands_eq (ts : List TypeExpr) : operands ts = ts.map operand := by
  induction ts with
  | nil => rfl
  | cons t ts ih => rw [operands, ih, List.map_cons, operand]

end TypeExpr

namespace Pattern

mutual

def pieces : Pattern → List Piece
  | named _ n => [.ident n.text]
  | wildcard _ => [.ident "_"]
  | unit _ => [.punct .lparen, .punct .rparen]
  | tuple _ items => enclosed ([.punct .comma].intercalate (piecesOfAll items))
  | typed _ p t => enclosed (pieces p ++ .punct .colon :: t.pieces)
  | error _ => []

def piecesOfAll : List Pattern → List (List Piece)
  | [] => []
  | p :: ps => pieces p :: piecesOfAll ps

end

theorem piecesOfAll_eq (ps : List Pattern) : piecesOfAll ps = ps.map pieces := by
  induction ps with
  | nil => rfl
  | cons p ps ih => rw [piecesOfAll, ih, List.map_cons]

end Pattern

/-- A binding between `let` and the equals sign. -/
def LetHead.pieces (h : LetHead) : List Piece :=
  (if h.isRec then [.keyword .recKw] else []) ++ (h.pattern.pieces ++ (h.params.flatMap Pattern.pieces ++
    (h.returnType.elim [] fun t => .punct .colon :: t.pieces)))

def Literal.pieces : Literal → List Piece
  | int value => [.word (.ofNat value)]
  | float _ => []
  | string value => [.word (.ofString value)]
  | char value => [.word (.ofChar value)]
  | bool value => [.keyword (if value then .trueKw else .falseKw)]
  | unit => [.punct .lparen, .punct .rparen]

def BinaryOp.operator : BinaryOp → Operator
  | pipe => .pipeRight
  | or => .orOr
  | and => .andAnd
  | eq => .eq
  | notEq => .notEq
  | lt => .lt
  | ltEq => .ltEq
  | gt => .gt
  | gtEq => .gtEq
  | concat => .caret
  | add => .plus
  | sub => .minus
  | mul => .star
  | div => .slash
  | rem => .percent

namespace Expr

def isAtomic : Expr → Bool
  | literal _ _ | ident _ | typed _ _ _ => true
  | _ => false

mutual

def pieces : Expr → List Piece
  | literal _ v => v.pieces
  | ident n => [.ident n.text]
  | member _ target _ name =>
    grouped target.isAtomic (pieces target) ++ .punct .dot :: name.elim [] fun n => [.ident n.text]
  | call _ callee args _ =>
    grouped callee.isAtomic (pieces callee) ++ .callParen :: ([.punct .comma].intercalate (operands args) ++
      [.punct .rparen])
  | app _ function argument =>
    grouped function.isAtomic (pieces function) ++ grouped argument.isAtomic (pieces argument)
  | neg _ inner => .operator .minus :: grouped inner.isAtomic (pieces inner)
  | binary _ op _ lhs rhs =>
    grouped lhs.isAtomic (pieces lhs) ++ .operator op.operator :: grouped rhs.isAtomic (pieces rhs)
  | conditional _ condition thenBranch elseBranch =>
    .keyword .ifKw :: (grouped condition.isAtomic (pieces condition) ++
      .keyword .thenKw :: (grouped thenBranch.isAtomic (pieces thenBranch) ++
        match elseBranch with | some b => .keyword .elseKw :: grouped b.isAtomic (pieces b) | none => []))
  | lambda _ params body =>
    .keyword .funKw :: (params.flatMap Pattern.pieces ++ .operator .arrow :: grouped body.isAtomic (pieces body))
  | letIn _ head value body =>
    .keyword .letKw :: head.pieces ++ .operator .eq :: (grouped value.isAtomic (pieces value) ++
      .keyword .inKw :: grouped body.isAtomic (pieces body))
  | tuple _ items => [.punct .comma].intercalate (operands items)
  | list _ items =>
    .punct .lbracket :: ([.punct .semicolon].intercalate (operands items) ++ [.punct .rbracket])
  | record _ fields =>
    .punct .lbrace :: ([.punct .semicolon].intercalate (entries fields) ++ [.punct .rbrace])
  | typed _ inner type =>
    enclosed (grouped inner.isAtomic (pieces inner) ++ .punct .colon :: type.pieces)
  | sequential _ _ _ | paren _ _ | error _ => []

def operands : List Expr → List (List Piece)
  | [] => []
  | e :: es => grouped e.isAtomic (pieces e) :: operands es

def entries : List (Ident × Expr) → List (List Piece)
  | [] => []
  | (name, e) :: fs => (.ident name.text :: .operator .eq :: grouped e.isAtomic (pieces e)) :: entries fs

end

def operand (e : Expr) : List Piece := grouped e.isAtomic e.pieces

/-- The expression as text. -/
def printed (e : Expr) : Text := Piece.line e.pieces

theorem operands_eq (es : List Expr) : operands es = es.map operand := by
  induction es with
  | nil => rfl
  | cons e es ih => rw [operands, ih, List.map_cons, operand]

theorem entries_eq (fs : List (Ident × Expr)) :
    entries fs = fs.map fun f => .ident f.1.text :: .operator .eq :: f.2.operand := by
  induction fs with
  | nil => rfl
  | cons f fs ih => rw [entries, ih, List.map_cons, operand]

theorem pieces_conditional (s : Span) (condition thenBranch : Expr) (elseBranch : Option Expr) :
    (conditional s condition thenBranch elseBranch).pieces =
      .keyword .ifKw :: (condition.operand ++ .keyword .thenKw :: (thenBranch.operand ++
        elseBranch.elim [] fun b => .keyword .elseKw :: b.operand)) := by
  cases elseBranch <;> rfl

/-! Trees without parentheses -/

mutual

/-- The expression without its parentheses. -/
def stripped : Expr → Expr
  | e@(literal _ _) | e@(ident _) | e@(error _) => e
  | member s target dot name => member s (stripped target) dot name
  | call s callee args parens => call s (stripped callee) (strippedOfAll args) parens
  | app s function argument => app s (stripped function) (stripped argument)
  | neg s inner => neg s (stripped inner)
  | binary s op opSpan lhs rhs => binary s op opSpan (stripped lhs) (stripped rhs)
  | conditional s condition thenBranch elseBranch =>
    conditional s (stripped condition) (stripped thenBranch) (match elseBranch with | some b => some (stripped b) | none => none)
  | lambda s params body => lambda s params (stripped body)
  | letIn s head value body => letIn s head (stripped value) (stripped body)
  | sequential s first second => sequential s (stripped first) (stripped second)
  | tuple s items => tuple s (strippedOfAll items)
  | list s items => list s (strippedOfAll items)
  | record s fields => record s (strippedOfFields fields)
  | paren _ inner => stripped inner
  | typed s inner type => typed s (stripped inner) type

def strippedOfAll : List Expr → List Expr
  | [] => []
  | e :: es => stripped e :: strippedOfAll es

def strippedOfFields : List (Ident × Expr) → List (Ident × Expr)
  | [] => []
  | (name, e) :: fs => (name, stripped e) :: strippedOfFields fs

end

/-- The expression without its places and parentheses. -/
def shape (e : Expr) : Expr := e.stripped.unplaced

theorem strippedOfAll_eq (es : List Expr) : strippedOfAll es = es.map stripped := by
  induction es with
  | nil => rfl
  | cons e es ih => rw [strippedOfAll, ih, List.map_cons]

theorem strippedOfFields_eq (fs : List (Ident × Expr)) : strippedOfFields fs = fs.map fun f => (f.1, f.2.stripped) := by
  induction fs with
  | nil => rfl
  | cons f fs ih => rw [strippedOfFields, ih, List.map_cons]

theorem shape_call (s parens : Span) (callee : Expr) (args : List Expr) :
    (call s callee args parens).shape = call (.empty 0) callee.shape (args.map shape) (.empty 0) := by
  rw [shape, stripped, unplaced, mapSpans_call, strippedOfAll_eq, List.map_map]
  rfl

theorem shape_conditional (s : Span) (condition thenBranch : Expr) (elseBranch : Option Expr) :
    (conditional s condition thenBranch elseBranch).shape =
      conditional (.empty 0) condition.shape thenBranch.shape (elseBranch.map shape) := by
  cases elseBranch <;> rfl

theorem shape_tuple (s : Span) (items : List Expr) : (tuple s items).shape = tuple (.empty 0) (items.map shape) := by
  rw [shape, stripped, unplaced, mapSpans_tuple, strippedOfAll_eq, List.map_map]
  rfl

theorem shape_list (s : Span) (items : List Expr) : (list s items).shape = list (.empty 0) (items.map shape) := by
  rw [shape, stripped, unplaced, mapSpans_list, strippedOfAll_eq, List.map_map]
  rfl

theorem shape_record (s : Span) (fields : List (Ident × Expr)) :
    (record s fields).shape = record (.empty 0) (fields.map fun f => (f.1.unplaced, f.2.shape)) := by
  rw [shape, stripped, unplaced, mapSpans_record, strippedOfFields_eq, List.map_map]
  rfl

end Expr

/-! Trees that have a text -/

def LongIdent.Named (n : LongIdent) : Prop := ∀ i ∈ n.parts, Token.isName i.text = true

inductive TypeExpr.Built : TypeExpr → Prop
  | named {s : Span} {n : LongIdent} : n.Named → Built (named s n)
  | var {s : Span} {n : Ident} : Token.isTypeVariable n.text = true → Built (var s n)
  | app {s : Span} {a : TypeExpr} {c : LongIdent} : Built a → c.Named → Built (app s a c)
  | array {s : Span} {e : TypeExpr} : Built e → Built (array s e)
  | function {s : Span} {d c : TypeExpr} : Built d → Built c → Built (function s d c)
  | tuple {s : Span} {items : List TypeExpr} : 2 ≤ items.length → (∀ t ∈ items, Built t) → Built (tuple s items)

inductive Pattern.Built : Pattern → Prop
  | named {s : Span} {n : Ident} : Token.isName n.text = true → n.text ≠ "_" → Built (named s n)
  | wildcard {s : Span} : Built (wildcard s)
  | unit {s : Span} : Built (unit s)
  | tuple {s : Span} {items : List Pattern} : 2 ≤ items.length → (∀ p ∈ items, Built p) → Built (tuple s items)
  | typed {s : Span} {p : Pattern} {t : TypeExpr} : Built p → t.Built → Built (typed s p t)

structure LetHead.Built (h : LetHead) : Prop where
  pattern : h.pattern.Built
  params : ∀ p ∈ h.params, p.Built
  returnType : ∀ t ∈ h.returnType, t.Built

/-- A binding with parameters binds a name. -/
def LetHead.Callable (h : LetHead) : Prop := h.params = [] ∨ h.pattern.isNamed = true

def Literal.IsExact : Literal → Prop
  | int value => value ≤ Parser.maxInt
  | float _ => False
  | string _ | char _ | bool _ | unit => True

/-- The expressions whose bindings are of the kind `Head`, without floating-point numbers, blocks, parentheses and
errors. -/
inductive Expr.Built (Head : LetHead → Prop) : Expr → Prop
  | literal {s : Span} {v : Literal} : v.IsExact → Built Head (literal s v)
  | ident {n : Ident} : Token.isName n.text = true → Built Head (ident n)
  | member {s dot : Span} {target : Expr} {name : Ident} :
      Built Head target → Token.isName name.text = true → Built Head (member s target dot (some name))
  | call {s parens : Span} {callee : Expr} {args : List Expr} :
      Built Head callee → (∀ e ∈ args, Built Head e) → Built Head (call s callee args parens)
  | app {s : Span} {function argument : Expr} :
      Built Head function → Built Head argument → Built Head (app s function argument)
  | neg {s : Span} {inner : Expr} : Built Head inner → Built Head (neg s inner)
  | binary {s opSpan : Span} {op : BinaryOp} {lhs rhs : Expr} :
      Built Head lhs → Built Head rhs → Built Head (binary s op opSpan lhs rhs)
  | conditional {s : Span} {condition thenBranch : Expr} {elseBranch : Option Expr} :
      Built Head condition → Built Head thenBranch → (∀ e ∈ elseBranch, Built Head e) →
      Built Head (conditional s condition thenBranch elseBranch)
  | lambda {s : Span} {params : List Pattern} {body : Expr} :
      params ≠ [] → (∀ p ∈ params, p.Built) → Built Head body → Built Head (lambda s params body)
  | letIn {s : Span} {head : LetHead} {value body : Expr} :
      head.Built → Head head → Built Head value → Built Head body → Built Head (letIn s head value body)
  | tuple {s : Span} {items : List Expr} :
      2 ≤ items.length → (∀ e ∈ items, Built Head e) → Built Head (tuple s items)
  | list {s : Span} {items : List Expr} : (∀ e ∈ items, Built Head e) → Built Head (list s items)
  | record {s : Span} {fields : List (Ident × Expr)} :
      (∀ f ∈ fields, Token.isName f.1.text = true) → (∀ f ∈ fields, Built Head f.2) → Built Head (record s fields)
  | typed {s : Span} {inner : Expr} {type : TypeExpr} : Built Head inner → type.Built → Built Head (typed s inner type)

/-! Everything that is written is legible -/

namespace Piece

variable {ps qs : List Piece} {p : Piece}

theorem legible_nil : Legible [] := nofun

theorem legible_cons : Legible (p :: ps) ↔ p.token.Legible ∧ Legible ps := List.forall_mem_cons

theorem legible_append : Legible (ps ++ qs) ↔ Legible ps ∧ Legible qs := List.forall_mem_append

theorem legible_singleton : Legible [p] ↔ p.token.Legible := List.forall_mem_singleton

theorem legible_enclosed (h : Legible ps) : Legible (enclosed ps) :=
  legible_cons.mpr ⟨.punct _, legible_append.mpr ⟨h, legible_singleton.mpr (.punct _)⟩⟩

theorem legible_grouped (h : Legible ps) (atomic : Bool) : Legible (grouped atomic ps) := by
  cases atomic with
  | false => exact legible_enclosed h
  | true => exact h

theorem legible_flatMap {α : Type} {xs : List α} {f : α → List Piece} (h : ∀ x ∈ xs, Legible (f x)) :
    Legible (xs.flatMap f) := by
  intro p hp
  obtain ⟨x, hx, hp⟩ := List.mem_flatMap.mp hp
  exact h x hx p hp

theorem intercalate_cons {sep : Piece} (ps : List Piece) (pss : List (List Piece)) :
    [sep].intercalate (ps :: pss) = ps ++ pss.flatMap (sep :: ·) := by
  induction pss generalizing ps with
  | nil => simp
  | cons qs pss ih => rw [List.intercalate_cons_cons, ih]; simp

theorem legible_intercalate {α : Type} {xs : List α} {f : α → List Piece} (h : ∀ x ∈ xs, Legible (f x))
    {sep : Piece} (hsep : sep.token.Legible) : Legible ([sep].intercalate (xs.map f)) := by
  cases xs with
  | nil => exact legible_nil
  | cons x xs =>
    obtain ⟨hx, hxs⟩ := List.forall_mem_cons.mp h
    rw [List.map_cons, intercalate_cons, List.flatMap_map]
    exact legible_append.mpr ⟨hx, legible_flatMap fun y hy => legible_cons.mpr ⟨hsep, hxs y hy⟩⟩

end Piece

open Piece

theorem LongIdent.Named.legible {n : LongIdent} (h : n.Named) : Legible n.pieces := by
  obtain ⟨hhead, htail⟩ := List.forall_mem_cons.mp h
  refine legible_cons.mpr ⟨.ident hhead, legible_flatMap fun i hi => ?_⟩
  exact legible_cons.mpr ⟨.punct _, legible_singleton.mpr (.ident (htail i hi))⟩

theorem TypeExpr.Built.legible {t : TypeExpr} (h : t.Built) : Legible t.pieces := by
  induction h with
  | named hn => exact hn.legible
  | var hn => exact legible_singleton.mpr (.typeVar hn)
  | app _ hc ha => exact legible_append.mpr ⟨legible_grouped ha _, hc.legible⟩
  | array _ he =>
    refine legible_append.mpr ⟨legible_grouped he _, ?_⟩
    exact legible_cons.mpr ⟨.punct _, legible_singleton.mpr (.punct _)⟩
  | function _ _ hd hc =>
    exact legible_append.mpr ⟨legible_grouped hd _, legible_cons.mpr ⟨.operator _, legible_grouped hc _⟩⟩
  | tuple _ _ hitems =>
    rw [pieces, operands_eq]
    exact legible_intercalate (fun t ht => legible_grouped (hitems t ht) _) (.operator _)

theorem Pattern.Built.legible {p : Pattern} (h : p.Built) : Legible p.pieces := by
  induction h with
  | named hn _ => exact legible_singleton.mpr (.ident hn)
  | wildcard => exact legible_singleton.mpr (.ident rfl)
  | unit => exact legible_cons.mpr ⟨.punct _, legible_singleton.mpr (.punct _)⟩
  | tuple _ _ hitems =>
    rw [pieces, piecesOfAll_eq]
    exact legible_enclosed (legible_intercalate hitems (.punct _))
  | typed _ ht hp =>
    exact legible_enclosed (legible_append.mpr ⟨hp, legible_cons.mpr ⟨.punct _, ht.legible⟩⟩)

theorem LetHead.Built.legible {h : LetHead} (hh : h.Built) : Legible h.pieces := by
  refine legible_append.mpr ⟨?_, legible_append.mpr ⟨hh.pattern.legible, ?_⟩⟩
  · cases h.isRec with
    | false => exact legible_nil
    | true => exact legible_singleton.mpr (.keyword _)
  · refine legible_append.mpr ⟨legible_flatMap fun p hp => (hh.params p hp).legible, ?_⟩
    cases htype : h.returnType with
    | none => exact legible_nil
    | some t => exact legible_cons.mpr ⟨.punct _, (hh.returnType t htype).legible⟩

theorem Literal.legible_pieces (v : Literal) : Legible v.pieces := by
  cases v with
  | int value => exact legible_singleton.mpr (Token.legible_ofNat value)
  | float => exact legible_nil
  | string value => exact legible_singleton.mpr (Token.legible_ofString value)
  | char value => exact legible_singleton.mpr (Token.legible_ofChar value)
  | bool value => exact legible_singleton.mpr (.keyword _)
  | unit => exact legible_cons.mpr ⟨.punct _, legible_singleton.mpr (.punct _)⟩

theorem Expr.Built.legible {Head : LetHead → Prop} {e : Expr} (h : e.Built Head) : Legible e.pieces := by
  induction h with
  | literal => exact Literal.legible_pieces _
  | ident hn => exact legible_singleton.mpr (.ident hn)
  | member _ hn ht =>
    exact legible_append.mpr ⟨legible_grouped ht _, legible_cons.mpr ⟨.punct _, legible_singleton.mpr (.ident hn)⟩⟩
  | call _ _ hcallee hargs =>
    rw [pieces, operands_eq]
    refine legible_append.mpr ⟨legible_grouped hcallee _, legible_cons.mpr ⟨.punct _, legible_append.mpr ⟨?_, ?_⟩⟩⟩
    · exact legible_intercalate (fun e he => legible_grouped (hargs e he) _) (.punct _)
    · exact legible_singleton.mpr (.punct _)
  | app _ _ hf ha => exact legible_append.mpr ⟨legible_grouped hf _, legible_grouped ha _⟩
  | neg _ hinner => exact legible_cons.mpr ⟨.operator _, legible_grouped hinner _⟩
  | binary _ _ hl hr =>
    exact legible_append.mpr ⟨legible_grouped hl _, legible_cons.mpr ⟨.operator _, legible_grouped hr _⟩⟩
  | @conditional _ _ _ elseBranch _ _ _ hc ht he =>
    rw [pieces_conditional]
    refine legible_cons.mpr ⟨.keyword _, legible_append.mpr ⟨legible_grouped hc _, ?_⟩⟩
    refine legible_cons.mpr ⟨.keyword _, legible_append.mpr ⟨legible_grouped ht _, ?_⟩⟩
    cases elseBranch with
    | none => exact legible_nil
    | some b => exact legible_cons.mpr ⟨.keyword _, legible_grouped (he b rfl) _⟩
  | lambda _ hparams _ hb =>
    refine legible_cons.mpr ⟨.keyword _, legible_append.mpr ⟨?_, legible_cons.mpr ⟨.operator _, legible_grouped hb _⟩⟩⟩
    exact legible_flatMap fun p hp => (hparams p hp).legible
  | letIn hhead _ _ _ hv hb =>
    refine legible_cons.mpr ⟨.keyword _, legible_append.mpr ⟨hhead.legible, legible_cons.mpr ⟨.operator _, ?_⟩⟩⟩
    exact legible_append.mpr ⟨legible_grouped hv _, legible_cons.mpr ⟨.keyword _, legible_grouped hb _⟩⟩
  | tuple _ _ hitems =>
    rw [pieces, operands_eq]
    exact legible_intercalate (fun e he => legible_grouped (hitems e he) _) (.punct _)
  | list _ hitems =>
    rw [pieces, operands_eq]
    refine legible_cons.mpr ⟨.punct _, legible_append.mpr ⟨?_, legible_singleton.mpr (.punct _)⟩⟩
    exact legible_intercalate (fun e he => legible_grouped (hitems e he) _) (.punct _)
  | record hnames _ hfields =>
    rw [pieces, entries_eq]
    refine legible_cons.mpr ⟨.punct _, legible_append.mpr ⟨?_, legible_singleton.mpr (.punct _)⟩⟩
    refine legible_intercalate (fun f hf => ?_) (.punct _)
    exact legible_cons.mpr ⟨.ident (hnames f hf), legible_cons.mpr ⟨.operator _, legible_grouped (hfields f hf) _⟩⟩
  | typed _ ht hinner =>
    refine legible_enclosed (legible_append.mpr ⟨legible_grouped hinner _, ?_⟩)
    exact legible_cons.mpr ⟨.punct _, ht.legible⟩

/-! How what is written starts -/

theorem Literal.pieces_start {v : Literal} (h : v.IsExact) :
    ∃ t ps, v.pieces = .word t :: ps ∧ t.startsAtom = true := by
  cases v with
  | float => exact h.elim
  | bool value => exact ⟨_, _, rfl, by cases value <;> rfl⟩
  | _ => exact ⟨_, _, rfl, rfl⟩

namespace Expr

variable {Head : LetHead → Prop} {e : Expr}

theorem Built.operand_start (h : e.Built Head) : ∃ t ps, e.operand = .word t :: ps ∧ t.startsAtom = true := by
  cases h with
  | literal hv => exact Literal.pieces_start hv
  | _ => exact ⟨_, _, rfl, rfl⟩

theorem not_follows_of_startsAtom {t : Token} (h : t.startsAtom = true) : Piece.follows t = false := by
  unfold Piece.follows
  split
  all_goals first | rfl | cases h

theorem Built.pieces_start (h : e.Built Head) : ∃ t ps, e.pieces = .word t :: ps ∧ Piece.follows t = false := by
  have hoperand : ∀ {e : Expr} (more : List Piece), e.Built Head →
      ∃ t ps, e.operand ++ more = .word t :: ps ∧ Piece.follows t = false := fun more he => by
    obtain ⟨t, ps, hps, ht⟩ := he.operand_start
    exact ⟨t, ps ++ more, by rw [hps, List.cons_append], not_follows_of_startsAtom ht⟩
  cases h with
  | literal hv =>
    obtain ⟨t, ps, hps, ht⟩ := Literal.pieces_start hv
    exact ⟨t, ps, hps, not_follows_of_startsAtom ht⟩
  | member htarget | call htarget | app htarget | binary htarget => exact hoperand _ htarget
  | @tuple _ items hlength hitems =>
    cases items with
    | nil => cases hlength
    | cons item items =>
      rw [pieces, operands_eq, List.map_cons, Piece.intercalate_cons]
      exact hoperand _ (hitems item List.mem_cons_self)
  | conditional => exact ⟨_, _, pieces_conditional .., rfl⟩
  | _ => exact ⟨_, _, rfl, rfl⟩

/-- A binding to the expression as a line of pieces. -/
theorem Built.line_printed (h : e.Built Head) : "let it = ".toList ++ e.printed =
    Piece.line (.keyword .letKw :: .ident "it" :: .operator .eq :: e.pieces) := by
  obtain ⟨t, ps, hps, ht⟩ := h.pieces_start
  have hspaced : (Piece.word t).spaced (.operator .eq) = true := by
    rw [Piece.spaced, ht]
    rfl
  rw [printed, hps]
  simp only [Piece.line, Piece.written, Piece.keyword, Piece.ident, Piece.operator, Piece.token, hspaced]
  rfl

end Expr

end ScriptAnalyzer

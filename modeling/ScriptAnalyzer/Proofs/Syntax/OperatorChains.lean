import ScriptAnalyzer.Proofs.Syntax.Indentation
import ScriptAnalyzer.Proofs.Syntax.Landmarks
import ScriptAnalyzer.Proofs.Syntax.RoundTrip

/-!
Chains of operands and infix operators on one line. The parser builds a tree whose operands and operators, from left to
right, are those of the chain. The tree is graded: an operator is the root of an operand of another one only if it
binds tightly enough there.
-/

namespace ScriptAnalyzer

/-! How tightly operators bind -/

namespace BinaryOp

/-- The level of an operator, from the loosest to the tightest. -/
def rank : BinaryOp → Nat
  | pipe => 0
  | or => 1
  | and => 2
  | eq | notEq | lt | ltEq | gt | gtEq => 3
  | concat => 4
  | add | sub => 5
  | mul | div | rem => 6

/-- Whether `inner` may be the root of the left operand: it binds at least as tightly, and more tightly than the
operator that associates to the right. -/
def AllowsLeft (op inner : BinaryOp) : Prop :=
  if op = concat then op.rank < inner.rank else op.rank ≤ inner.rank

/-- Whether `inner` may be the root of the right operand: it binds more tightly, and at least as tightly as the operator
that associates to the right. -/
def AllowsRight (op inner : BinaryOp) : Prop :=
  if op = concat then op.rank ≤ inner.rank else op.rank < inner.rank

/-- The binding power to the left. -/
def leftPower (op : BinaryOp) : Nat := if op = concat then 2 * op.rank + 2 else 2 * op.rank + 1

/-- The binding power to the right. -/
def rightPower (op : BinaryOp) : Nat := if op = concat then 2 * op.rank + 1 else 2 * op.rank + 2

/-- No other operator has the level of the one that associates to the right. -/
theorem rank_eq_concat {op : BinaryOp} : op.rank = concat.rank ↔ op = concat := by
  cases op <;> decide

theorem allowsLeft_iff {op inner : BinaryOp} : op.AllowsLeft inner ↔ op.leftPower < inner.rightPower := by
  have hop := @rank_eq_concat op
  have hinner := @rank_eq_concat inner
  simp only [AllowsLeft, leftPower, rightPower, ← hop, ← hinner]
  split <;> split <;> omega

theorem allowsRight_iff {op inner : BinaryOp} : op.AllowsRight inner ↔ op.rightPower ≤ inner.leftPower := by
  have hop := @rank_eq_concat op
  have hinner := @rank_eq_concat inner
  simp only [AllowsRight, leftPower, rightPower, ← hop, ← hinner]
  split <;> split <;> omega

end BinaryOp

/-- The table of the parser holds these powers. -/
theorem Parser.infixOperator?_powers (op : BinaryOp) :
    infixOperator? (.operator op.operator) = some (op, op.leftPower, op.rightPower) := by
  cases op <;> rfl

/-! Chains -/

/-- Operands with infix operators between them; each operator has the place where it stands. -/
structure Chain (α : Type) where
  first : α
  more : List ((BinaryOp × Span) × α)

namespace Chain

variable {α β : Type}

def map (f : α → β) (c : Chain α) : Chain β := ⟨f c.first, c.more.map fun x => (x.1, f x.2)⟩

def join (c : Chain α) (op : BinaryOp × Span) (d : Chain α) : Chain α := ⟨c.first, c.more ++ (op, d.first) :: d.more⟩

end Chain

namespace Expr

/-- The operator at the root. -/
def root? : Expr → Option BinaryOp
  | binary _ op _ _ _ => some op
  | _ => none

/-- The operands and operators from left to right. An operand is a largest part without an operator at its root. -/
def inOrder : Expr → Chain Expr
  | binary _ op place lhs rhs => lhs.inOrder.join (op, place) rhs.inOrder
  | e => ⟨e, []⟩

/-- At every operator the roots of both operands bind tightly enough. -/
inductive Graded : Expr → Prop
  | operand {e : Expr} : e.root? = none → Graded e
  | binary {span place : Span} {op : BinaryOp} {lhs rhs : Expr} : Graded lhs → Graded rhs →
      (∀ inner ∈ lhs.root?, op.AllowsLeft inner) → (∀ inner ∈ rhs.root?, op.AllowsRight inner) →
      Graded (binary span op place lhs rhs)

theorem inOrder_of_root? {e : Expr} (h : e.root? = none) : e.inOrder = ⟨e, []⟩ := by
  cases e with
  | binary => cases h
  | _ => rfl

end Expr

/-- An identifier or an integer literal. -/
inductive Atom where
  | ident (name : Ident)
  | int (digits : String) (place : Span)

namespace Atom

def source : Atom → Token × Span
  | ident name => name.source
  | int digits place => (.int digits, place)

/-- The value of the digits is that of a literal. -/
def InRange : Atom → Prop
  | ident _ => True
  | int digits _ => Binary64.digitsValue digits.toList ≤ Parser.maxInt

instance : (a : Atom) → Decidable a.InRange
  | ident _ => .isTrue trivial
  | int _ _ => Nat.decLe _ _

/-- An integer out of range counts as zero. -/
def expr : Atom → Expr
  | ident name => .ident name
  | int digits place =>
    let value := Binary64.digitsValue digits.toList
    .literal place (.int (if value ≤ Parser.maxInt then value else 0))

end Atom

/-- An atom that may be applied to further ones, and all of it be negated. -/
structure Operand where
  minuses : List Span
  function : Atom
  args : List Atom

namespace Operand

def sources (o : Operand) : List (Token × Span) :=
  o.minuses.map (.operator .minus, ·) ++ o.function.source :: o.args.map Atom.source

/-- Application binds more tightly than negation. -/
def expr (o : Operand) : Expr :=
  o.minuses.foldr (fun minus inner => .neg (minus.merge inner.span) inner)
    (o.args.foldl (fun function a => .app (function.span.merge a.expr.span) function a.expr) o.function.expr)

def atoms (o : Operand) : List Atom := o.function :: o.args

theorem mem_sources {o : Operand} {x : Token × Span} (h : x ∈ o.sources) :
    (∃ op, x.1 = .operator op) ∨ ∃ a ∈ o.atoms, x = a.source := by
  rcases List.mem_append.mp h with h | h
  · obtain ⟨minus, -, rfl⟩ := List.mem_map.mp h
    exact .inl ⟨_, rfl⟩
  · obtain ⟨a, ha, rfl⟩ := List.mem_map.mp (show x ∈ o.atoms.map Atom.source from h)
    exact .inr ⟨a, ha, rfl⟩

theorem length_pos (o : Operand) : 0 < o.sources.length := by
  rw [sources, List.length_append, List.length_cons]
  omega

theorem root?_expr (o : Operand) : o.expr.root? = none := by
  have hargs (args : List Atom) (function : Expr) (h : function.root? = none) :
      (args.foldl (fun function a => Expr.app (function.span.merge a.expr.span) function a.expr) function).root? =
        none := by
    induction args generalizing function with
    | nil => exact h
    | cons a args ih => exact ih _ rfl
  obtain ⟨minuses, function, args⟩ := o
  cases minuses with
  | nil => exact hargs args _ (by cases function <;> rfl)
  | cons => rfl

end Operand

namespace Chain

def moreSources (more : List ((BinaryOp × Span) × Operand)) : List (Token × Span) :=
  more.flatMap fun x => (.operator x.1.1.operator, x.1.2) :: x.2.sources

theorem moreSources_append (xs ys : List ((BinaryOp × Span) × Operand)) :
    moreSources (xs ++ ys) = moreSources xs ++ moreSources ys :=
  List.flatMap_append

def sources (c : Chain Operand) : List (Token × Span) := c.first.sources ++ moreSources c.more

/-- The parts of a tree with further operators and operands behind them. -/
def extend (c : Chain Expr) (more : List ((BinaryOp × Span) × Operand)) : Chain Expr :=
  ⟨c.first, c.more ++ more.map fun x => (x.1, x.2.expr)⟩

theorem extend_nil (c : Chain Expr) : c.extend [] = c := by
  rw [extend, List.map_nil, List.append_nil]

def atoms (c : Chain Operand) : List Atom := c.first.atoms ++ c.more.flatMap (·.2.atoms)

theorem mem_sources {c : Chain Operand} {x : Token × Span} (h : x ∈ c.sources) :
    (∃ op, x.1 = .operator op) ∨ ∃ a ∈ c.atoms, x = a.source := by
  rcases List.mem_append.mp h with h | h
  · rcases Operand.mem_sources h with hop | ⟨a, ha, hx⟩
    · exact .inl hop
    · exact .inr ⟨a, List.mem_append_left _ ha, hx⟩
  · obtain ⟨⟨⟨op, place⟩, o⟩, ho, h⟩ := List.mem_flatMap.mp h
    rcases List.mem_cons.mp h with rfl | h
    · exact .inl ⟨_, rfl⟩
    · rcases Operand.mem_sources h with hop | ⟨a, ha, hx⟩
      · exact .inl hop
      · exact .inr ⟨a, List.mem_append_right _ (List.mem_flatMap.mpr ⟨_, ho, ha⟩), hx⟩

theorem exists_cons (c : Chain Operand) : ∃ x xs, c.sources = x :: xs := by
  refine List.exists_cons_of_length_pos ?_
  rw [sources, List.length_append]
  exact Nat.add_pos_left c.first.length_pos _

/-- No literal is out of range. -/
def InRange (c : Chain Operand) : Prop := ∀ a ∈ c.atoms, a.InRange

instance (c : Chain Operand) : Decidable c.InRange := inferInstanceAs (Decidable (∀ a ∈ c.atoms, a.InRange))

/-- The tokens of the text bind the chain to a name on one line. -/
structure BoundIn (c : Chain Operand) (name : Ident) (text : Text) (defines : List String) : Prop where
  tokens : ∃ keyword sign, (significantTokens text defines).1.map LaidToken.source =
    (.keyword .letKw, keyword) :: name.source :: (.operator .eq, sign) :: c.sources
  line : ∀ t ∈ (significantTokens text defines).1.tail, t.lineStart = false

end Chain

/-! A line that is left to read -/

/-- Tokens that chains are made of. -/
def Token.isChained : Token → Bool
  | ident _ | int _ | operator _ => true
  | _ => false

/-- The token in front. -/
def nextOf (sources : List (Token × Span)) : Token := (sources.head?.map (·.1)).getD .eof

namespace ParserState

/-- The sources are what is left to read, all on the current line. If all is `fine`, nothing was reported and no number
is left that would be. -/
structure OnLine (fine : Prop) (sources : List (Token × Span)) (s : ParserState) : Prop where
  rest : s.rest.map LaidToken.source = sources
  line : ∀ t ∈ s.rest, t.lineStart = false
  chained : ∀ x ∈ sources, x.1.isChained = true
  inRange : fine → ∀ digits place, (.int digits, place) ∈ sources →
    Binary64.digitsValue digits.toList ≤ Parser.maxInt
  errors : fine → s.errors = []

namespace OnLine

variable {fine : Prop} {s : ParserState} {x : Token × Span} {xs : List (Token × Span)}

theorem exists_cons (h : s.OnLine fine (x :: xs)) : ∃ t ts, s.rest = t :: ts ∧ t.source = x := by
  obtain ⟨t, ts, hrest, ht, -⟩ := List.map_eq_cons_iff.mp h.rest
  exact ⟨t, ts, hrest, ht⟩

theorem source (h : s.OnLine fine (x :: xs)) : s.current.source = x := by
  obtain ⟨t, ts, hrest, ht⟩ := h.exists_cons
  rw [current, hrest]
  exact ht

theorem token (h : s.OnLine fine (x :: xs)) : s.current.token = x.1 := congrArg Prod.fst h.source

theorem span (h : s.OnLine fine (x :: xs)) : s.current.span = x.2 := congrArg Prod.snd h.source

theorem atEnd (h : s.OnLine fine (x :: xs)) : s.atEnd = false := by
  obtain ⟨t, ts, hrest, -⟩ := h.exists_cons
  rw [ParserState.atEnd, hrest]
  rfl

theorem lineStart (h : s.OnLine fine (x :: xs)) : s.current.lineStart = false := by
  obtain ⟨t, ts, hrest, -⟩ := h.exists_cons
  rw [current, hrest]
  exact h.line t (hrest ▸ List.mem_cons_self)

theorem isOffside (h : s.OnLine fine (x :: xs)) : s.isOffside = false := by
  rw [ParserState.isOffside, h.atEnd, h.lineStart]
  rfl

theorem rest_nil (h : s.OnLine fine []) : s.rest = [] := List.map_eq_nil_iff.mp h.rest

theorem peek (h : s.OnLine fine xs) : s.peek = nextOf xs := by
  cases xs with
  | nil =>
    rw [ParserState.peek, current, h.rest_nil]
    rfl
  | cons x xs => exact h.token

theorem advance (h : s.OnLine fine (x :: xs)) : s.advance.OnLine fine xs := by
  obtain ⟨t, ts, hrest, -⟩ := h.exists_cons
  have hmap := h.rest
  rw [hrest, List.map_cons] at hmap
  rw [ParserState.advance, hrest]
  refine ⟨(List.cons.inj hmap).2, fun u hu => h.line u ?_, fun y hy => h.chained y (List.mem_cons_of_mem _ hy), ?_, h.errors⟩
  · exact hrest ▸ List.mem_cons_of_mem _ hu
  · exact fun hfine digits place hmem => h.inRange hfine digits place (List.mem_cons_of_mem _ hmem)

theorem report (h : s.OnLine fine xs) (hfine : ¬fine) (e : SyntaxError) : (s.report e).OnLine fine xs := by
  have hrest : (s.report e).rest = s.rest := by
    rw [ParserState.report]
    split <;> rfl
  exact ⟨hrest ▸ h.rest, hrest ▸ h.line, h.chained, h.inRange, fun h => absurd h hfine⟩

theorem isChained (h : s.OnLine fine xs) : s.peek = .eof ∨ s.peek.isChained = true := by
  rw [h.peek]
  cases xs with
  | nil => exact .inl rfl
  | cons x xs => exact .inr (h.chained x List.mem_cons_self)

theorem ne_punct (h : s.OnLine fine xs) (p : Punct) : s.peek ≠ .punct p := by
  intro hpeek
  rcases h.isChained with hend | hchained
  · exact absurd (hpeek.symm.trans hend) nofun
  · rw [hpeek] at hchained
    cases hchained

theorem ne_keyword (h : s.OnLine fine xs) (k : Keyword) : s.peek ≠ .keyword k := by
  intro hpeek
  rcases h.isChained with hend | hchained
  · exact absurd (hpeek.symm.trans hend) nofun
  · rw [hpeek] at hchained
    cases hchained

end OnLine

end ParserState

namespace Parser

open ParserState

variable {fine : Prop} {s : ParserState} {xs : List (Token × Span)} {n : Nat}

/-! Operands -/

theorem atom_reads (a : Atom) (h : s.OnLine fine (a.source :: xs)) :
    (atom (n + 1)).Yields s fun r s' => r = a.expr ∧ s'.OnLine fine xs := by
  have htoken := h.token
  have hspan := h.span
  simp only [atom, yields_bind, yields_get, h.isOffside, Bool.false_eq_true, if_false]
  cases a with
  | ident name =>
    rw [htoken, hspan]
    exact ⟨rfl, h.advance⟩
  | int digits place =>
    simp only [htoken, Atom.source, literal?, yields_bind]
    by_cases hvalue : Binary64.digitsValue digits.toList ≤ maxInt
    · simp only [if_pos hvalue, yields_pure, yields_bind, yields_skip, Atom.expr, hspan, Atom.source]
      exact ⟨trivial, h.advance⟩
    · simp only [if_neg hvalue, yields_pure, yields_bind, yields_error, yields_skip, Atom.expr, hspan, Atom.source]
      have hfine : ¬fine := fun hfine => hvalue (h.inRange hfine digits place List.mem_cons_self)
      exact ⟨trivial, (h.report hfine _).advance⟩

theorem accesses_none (h : s.OnLine fine xs) (n : Nat) (target : Expr) (Q : Expr → ParserState → Prop) :
    (accesses n target).Yields s Q ↔ Q target s := by
  cases n with
  | zero => exact Iff.rfl
  | succ n =>
    have hpunct := h.ne_punct
    simp only [accesses, yields_bind, yields_get]
    split
    case h_1 hpeek | h_2 hpeek => exact absurd hpeek (hpunct _)
    case h_3 => exact Iff.rfl

theorem accessed_reads (a : Atom) (h : s.OnLine fine (a.source :: xs)) :
    (accessed (n + 2)).Yields s fun r s' => r = a.expr ∧ s'.OnLine fine xs := by
  simp only [accessed, yields_bind]
  refine (atom_reads a h).mono fun r s' h' => ?_
  obtain ⟨hr, hs'⟩ := h'
  exact (accesses_none hs' _ _ _).mpr ⟨hr, hs'⟩

theorem Atom.startsAtom (a : Atom) : a.source.1.startsAtom = true := by
  cases a <;> rfl

theorem arguments_reads {args : List Atom} {function : Expr} (hn : args.length + 2 ≤ n)
    (hxs : (nextOf xs).startsAtom = false) (h : s.OnLine fine (args.map Atom.source ++ xs)) :
    (arguments n function).Yields s fun r s' =>
      r = args.foldl (fun function a => .app (function.span.merge a.expr.span) function a.expr) function ∧
        s'.OnLine fine xs := by
  induction args generalizing n function s with
  | nil => exact (arguments_stop _ _ (h.peek ▸ hxs) _).mpr ⟨rfl, h⟩
  | cons a args ih =>
    rw [List.length_cons] at hn
    obtain ⟨n, rfl⟩ : ∃ m, n = m + 3 := ⟨n - 3, by omega⟩
    have hstart : s.peek.startsAtom = true := h.peek ▸ Atom.startsAtom a
    simp only [arguments, yields_bind, yields_get, hstart, OnLine.isOffside h, Bool.not_false, Bool.and_self, if_true]
    refine (accessed_reads a h).mono fun r s' h' => ?_
    obtain ⟨hr, hs'⟩ := h'
    rw [hr]
    exact ih (n := n + 2) (by omega) hs'

theorem unary_reads {o : Operand} (hn : o.sources.length + 2 ≤ n) (hxs : (nextOf xs).startsAtom = false)
    (h : s.OnLine fine (o.sources ++ xs)) :
    (unary n).Yields s fun r s' => r = o.expr ∧ s'.OnLine fine xs := by
  obtain ⟨minuses, function, args⟩ := o
  induction minuses generalizing n s with
  | nil =>
    have hlength : (Operand.sources ⟨[], function, args⟩).length = args.length + 1 := by
      simp [Operand.sources]
    obtain ⟨n, rfl⟩ : ∃ m, n = m + 3 := ⟨n - 3, by omega⟩
    have hminus : s.peek ≠ .operator .minus := by
      rw [h.peek]
      cases function <;> rintro ⟨⟩
    simp only [unary, yields_bind, yields_get, hminus, decide_false, Bool.false_and, Bool.false_eq_true, if_false]
    refine (accessed_reads function h).mono fun r s' h' => ?_
    obtain ⟨hr, hs'⟩ := h'
    have hargs : args.length + 2 ≤ n + 2 := by omega
    rw [hr]
    exact arguments_reads hargs hxs hs'
  | cons minus minuses ih =>
    have hlength : (Operand.sources ⟨minus :: minuses, function, args⟩).length =
        (Operand.sources ⟨minuses, function, args⟩).length + 1 := rfl
    obtain ⟨n, rfl⟩ : ∃ m, n = m + 1 := ⟨n - 1, by omega⟩
    have hpeek : s.peek = .operator .minus := h.peek
    have hspan : s.current.span = minus := OnLine.span h
    simp only [unary, yields_bind, yields_get, hpeek, OnLine.isOffside h, decide_true, Bool.not_false, Bool.and_self,
      if_true, yields_bump]
    refine (ih (by omega) (OnLine.advance h)).mono fun r s' h' => ?_
    obtain ⟨hr, hs'⟩ := h'
    refine ⟨?_, hs'⟩
    rw [hr, hspan]
    rfl

/-! Chains -/

variable {power : Nat} {lhs e : Expr} {more : List ((BinaryOp × Span) × Operand)}

/-- What holds of the part of a chain that the parser has read: it is graded, the operator at its root binds at least as
tightly to the left as `power`, and the operator behind it binds less tightly than the one at its root to the right. -/
structure Climbed (power : Nat) (more : List ((BinaryOp × Span) × Operand)) (e : Expr) : Prop where
  graded : e.Graded
  root : ∀ op ∈ e.root?, power ≤ op.leftPower
  next : ∀ op ∈ e.root?, ∀ x ∈ more.head?, x.1.1.leftPower < op.rightPower

theorem Climbed.of_operand (h : e.root? = none) : Climbed power more e :=
  ⟨.operand h, by simp [h], by simp [h]⟩

/-- From `lhs` the parser read on to `e`, up to an operator that binds less tightly than `power`. -/
structure ReadsOn (fine : Prop) (power : Nat) (lhs : Expr) (more left : List ((BinaryOp × Span) × Operand)) (e : Expr)
    (s : ParserState) : Prop where
  rest : s.OnLine fine (Chain.moreSources left)
  inOrder : ∃ taken, more = taken ++ left ∧ e.inOrder = lhs.inOrder.extend taken
  climbed : Climbed power left e
  stops : ∀ x ∈ left.head?, x.1.1.leftPower < power

/-- The operator between two parts may be the root over both if the right one was read up to an operator that binds
less tightly. -/
theorem Climbed.binary {op : BinaryOp} {place : Span} {o : Operand} {left : List ((BinaryOp × Span) × Operand)}
    {rhs : Expr} (hlhs : Climbed power (((op, place), o) :: more) lhs)
    (hrhs : ReadsOn fine op.rightPower o.expr more left rhs s) (htight : power ≤ op.leftPower) (opSpan span : Span) :
    Climbed power left (.binary span op opSpan lhs rhs) := by
  constructor
  · refine .binary hlhs.graded hrhs.climbed.graded (fun inner hinner => ?_) fun inner hinner => ?_
    · exact BinaryOp.allowsLeft_iff.mpr (hlhs.next inner hinner _ rfl)
    · exact BinaryOp.allowsRight_iff.mpr (hrhs.climbed.root inner hinner)
  · intro root hroot
    obtain rfl := Option.some.inj hroot
    exact htight
  · intro root hroot x hx
    obtain rfl := Option.some.inj hroot
    exact hrhs.stops x hx

theorem ReadsOn.left_le {left : List ((BinaryOp × Span) × Operand)} (h : ReadsOn fine power lhs more left e s) :
    (Chain.moreSources left).length ≤ (Chain.moreSources more).length := by
  obtain ⟨taken, hmore, -⟩ := h.inOrder
  rw [hmore, Chain.moreSources_append, List.length_append]
  exact Nat.le_add_left _ _

/-- The right operand of an operator is read first, then what stands behind both. -/
theorem ReadsOn.trans {op : BinaryOp} {place span : Span} {o : Operand} {left left' : List ((BinaryOp × Span) × Operand)}
    {rhs : Expr} {s' : ParserState} (hrhs : ReadsOn fine op.rightPower o.expr more left rhs s)
    (h : ReadsOn fine power (.binary span op place lhs rhs) left left' e s') :
    ReadsOn fine power lhs (((op, place), o) :: more) left' e s' := by
  obtain ⟨taken, hmore, hrhs⟩ := hrhs.inOrder
  obtain ⟨taken', hleft, he⟩ := h.inOrder
  refine ⟨h.rest, ⟨((op, place), o) :: (taken ++ taken'), ?_, ?_⟩, h.climbed, h.stops⟩
  · rw [hmore, hleft, List.cons_append, List.append_assoc]
  · rw [he, Expr.inOrder, hrhs, Expr.inOrder_of_root? o.root?_expr]
    simp [Chain.extend, Chain.join]

theorem startsAtom_moreSources (more : List ((BinaryOp × Span) × Operand)) :
    (nextOf (Chain.moreSources more)).startsAtom = false := by
  cases more <;> rfl

theorem startsOpenExpr_sources (o : Operand) (xs : List (Token × Span)) :
    startsOpenExpr (nextOf (o.sources ++ xs)) = false := by
  obtain ⟨minuses, function, args⟩ := o
  cases minuses with
  | nil => cases function <;> rfl
  | cons => rfl

/-- The operators that are read behind `lhs` are those in front of the first one that binds less tightly than `power`,
and the tree over them is graded. The induction is on the depth; each operator takes the ones behind it that bind more
tightly into its right operand. -/
theorem operations_reads (hn : 2 * (Chain.moreSources more).length + 2 ≤ n) (hlhs : Climbed power more lhs)
    (h : s.OnLine fine (Chain.moreSources more)) :
    (operations n power lhs).Yields s fun e s' => ∃ left, ReadsOn fine power lhs more left e s' := by
  induction n using Nat.strongRecOn generalizing s power lhs more with
  | ind n ih =>
  cases more with
  | nil =>
    have hnone : infixOperator? s.peek = none := h.peek ▸ rfl
    refine (operations_stop _ _ _ hnone _).mpr ⟨[], h, ⟨[], rfl, ?_⟩, hlhs, by simp⟩
    exact lhs.inOrder.extend_nil.symm
  | cons x more =>
    obtain ⟨⟨op, place⟩, o⟩ := x
    have hlength : (Chain.moreSources (((op, place), o) :: more)).length =
        o.sources.length + (Chain.moreSources more).length + 1 := by
      simp [Chain.moreSources]
    have hpos := o.length_pos
    obtain ⟨n, rfl⟩ : ∃ m, n = m + 2 := ⟨n - 2, by omega⟩
    have hpeek : s.peek = .operator op.operator := h.peek
    have hplace : s.current.span = place := OnLine.span h
    have hrest : s.advance.OnLine fine (o.sources ++ Chain.moreSources more) := OnLine.advance h
    have hopen : startsOpenExpr s.advance.peek = false := hrest.peek ▸ startsOpenExpr_sources o _
    rw [operations]
    simp only [yields_bind, yields_get, hpeek, infixOperator?_powers, OnLine.isOffside h, Bool.or_false,
      decide_eq_true_eq]
    split
    case isTrue hloose =>
      refine ⟨_, h, ⟨[], rfl, lhs.inOrder.extend_nil.symm⟩, hlhs, fun x hx => ?_⟩
      obtain rfl := Option.some.inj hx
      exact hloose
    case isFalse htight =>
      simp only [yields_bind, yields_bump, rightOperand, yields_get, hopen, Bool.false_eq_true, if_false, operand]
      refine (unary_reads (by omega) (startsAtom_moreSources more) hrest).mono fun r s₁ h' => ?_
      obtain ⟨hr, hs₁⟩ := h'
      subst hr
      refine (ih n (by omega) (by omega) (.of_operand o.root?_expr) hs₁).mono fun rhs s₂ h' => ?_
      obtain ⟨left, hread⟩ := h'
      have hle := hread.left_le
      have hnode := hlhs.binary hread (Nat.le_of_not_lt htight) s.current.span
      refine (ih (n + 1) (by omega) (by omega) (hnode _) hread.rest).mono fun e s₃ h' => ?_
      obtain ⟨left', hread'⟩ := h'
      refine ⟨left', ?_⟩
      rw [hplace] at hread'
      exact hread.trans hread'

/-- The parser has read all, and the tree is graded and has the operands and operators of the chain. -/
structure ReadsChain (fine : Prop) (c : Chain Operand) (e : Expr) (s : ParserState) : Prop where
  rest : s.OnLine fine []
  inOrder : e.inOrder = c.map Operand.expr
  graded : e.Graded

variable {c : Chain Operand}

theorem operand_readsChain (hn : 2 * c.sources.length + 3 ≤ n) (h : s.OnLine fine c.sources) :
    (operand n 0).Yields s (ReadsChain fine c) := by
  have hlength : c.sources.length = c.first.sources.length + (Chain.moreSources c.more).length := List.length_append
  have hpos := c.first.length_pos
  obtain ⟨n, rfl⟩ : ∃ m, n = m + 1 := ⟨n - 1, by omega⟩
  simp only [operand, yields_bind]
  refine (unary_reads (by omega) (startsAtom_moreSources c.more) h).mono fun r s₁ h' => ?_
  obtain ⟨hr, hs₁⟩ := h'
  subst hr
  refine (operations_reads (by omega) (.of_operand c.first.root?_expr) hs₁).mono fun e s₂ h' => ?_
  obtain ⟨left, hread⟩ := h'
  obtain ⟨taken, hmore, he⟩ := hread.inOrder
  -- No operator binds less tightly than zero, so none is left.
  obtain rfl : left = [] := by
    cases left with
    | nil => rfl
    | cons x left => exact absurd (hread.stops x rfl) (Nat.not_lt_zero _)
  refine ⟨hread.rest, ?_, hread.climbed.graded⟩
  rw [he, Expr.inOrder_of_root? c.first.root?_expr, Chain.map, hmore, List.append_nil]
  rfl

theorem simpleExpr_readsChain (hn : 2 * c.sources.length + 4 ≤ n) (h : s.OnLine fine c.sources) :
    (simpleExpr n).Yields s (ReadsChain fine c) := by
  obtain ⟨n, rfl⟩ : ∃ m, n = m + 1 := ⟨n - 1, by omega⟩
  have hkeyword := h.ne_keyword
  simp only [simpleExpr, yields_bind, yields_get]
  split
  case h_4 => exact operand_readsChain (by omega) h
  all_goals exact absurd ‹_› (hkeyword _)

theorem expr_readsChain (hn : 2 * c.sources.length + 5 ≤ n) (h : s.OnLine fine c.sources) :
    (expr n).Yields s (ReadsChain fine c) := by
  obtain ⟨n, rfl⟩ : ∃ m, n = m + 1 := ⟨n - 1, by omega⟩
  simp only [expr, yields_bind]
  refine (simpleExpr_readsChain (by omega) h).mono fun e s' he => ?_
  exact (tupleItems_stop _ (he.rest.ne_punct _) _).mpr he

theorem body_readsChain (hn : 2 * c.sources.length + 6 ≤ n) (h : s.OnLine fine c.sources) :
    (body n).Yields s (ReadsChain fine c) := by
  obtain ⟨n, rfl⟩ : ∃ m, n = m + 1 := ⟨n - 1, by omega⟩
  obtain ⟨x, xs, hsources⟩ := Chain.exists_cons c
  have hline := hsources ▸ h
  simp only [body, yields_bind, yields_get, hline.atEnd, hline.lineStart, Bool.false_and, Bool.or_self,
    Bool.false_eq_true, if_false]
  exact expr_readsChain (by omega) h

/-! Files of one binding -/

/-- The only line of a file, which binds a chain to a name, is left to read. -/
structure AtChain (fine : Prop) (name : Ident) (c : Chain Operand) (s : ParserState) : Prop where
  rest : ∃ t ts sign, s.rest = t :: ts ∧ t.token = .keyword .letKw ∧ t.lineStart = true ∧
    ts.map LaidToken.source = name.source :: (.operator .eq, sign) :: c.sources ∧ ∀ u ∈ ts, u.lineStart = false
  inRange : fine → c.InRange
  errors : fine → s.errors = []

variable {name : Ident}

namespace AtChain

theorem peek (h : AtChain fine name c s) : s.peek = .keyword .letKw := by
  obtain ⟨t, ts, sign, hrest, htoken, -⟩ := h.rest
  rw [ParserState.peek, current, hrest]
  exact htoken

theorem atEnd (h : AtChain fine name c s) : s.atEnd = false := by
  obtain ⟨t, ts, sign, hrest, -⟩ := h.rest
  rw [ParserState.atEnd, hrest]
  rfl

theorem lineStart (h : AtChain fine name c s) : s.current.lineStart = true := by
  obtain ⟨t, ts, sign, hrest, -, hline, -⟩ := h.rest
  rw [current, hrest]
  exact hline

theorem length (h : AtChain fine name c s) : s.rest.length = c.sources.length + 3 := by
  obtain ⟨t, ts, sign, hrest, -, -, hsources, -⟩ := h.rest
  have hlength := congrArg List.length hsources
  rw [List.length_map] at hlength
  rw [hrest, List.length_cons, hlength]
  rfl

theorem onLine (h : AtChain fine name c s) :
    ∃ sign, s.advance.OnLine fine (name.source :: (.operator .eq, sign) :: c.sources) := by
  obtain ⟨t, ts, sign, hrest, -, -, hsources, hline⟩ := h.rest
  have hrest' : s.advance.rest = ts := by rw [ParserState.advance, hrest]
  refine ⟨sign, hrest' ▸ hsources, hrest' ▸ hline, ?_, fun hfine digits place hmem => ?_, ?_⟩
  · refine List.forall_mem_cons.mpr ⟨rfl, List.forall_mem_cons.mpr ⟨rfl, fun x hx => ?_⟩⟩
    rcases Chain.mem_sources hx with ⟨op, hop⟩ | ⟨a, -, rfl⟩
    · rw [hop]
      rfl
    · cases a <;> rfl
  · have hmem : (.int digits, place) ∈ c.sources := by simpa [Ident.source] using hmem
    rcases Chain.mem_sources hmem with ⟨op, hop⟩ | ⟨a, ha, hsource⟩
    · cases hop
    · have hinRange := h.inRange hfine a ha
      cases a with
      | ident => cases hsource
      | int =>
        cases hsource
        exact hinRange
  · rw [errors_advance]
    exact h.errors

end AtChain

theorem binding_readsChain (hn : 2 * c.sources.length + 7 ≤ n) (h : AtChain fine name c s) :
    (binding n).Yields s fun b s' => ReadsChain fine c b.body s' := by
  obtain ⟨n, rfl⟩ : ∃ m, n = m + 1 := ⟨n - 1, by omega⟩
  obtain ⟨m, hm⟩ : ∃ m, n = m + 1 := ⟨n - 1, by omega⟩
  obtain ⟨sign, hname⟩ := h.onLine
  have hname' : s.advance.current.token = .ident name.text := hname.token
  have heq : s.advance.advance.peek = .operator .eq := hname.advance.peek
  have hpattern (Q : Pattern → ParserState → Prop) (hQ : ∀ p, Q p s.advance.advance) :
      (bindingPattern (atomicPattern n)).Yields s.advance Q := by
    have hpeek : s.advance.peek = .ident name.text := hname'
    simp only [hm, bindingPattern, yields_bind, yields_get, hpeek, atomicPattern, hname', yields_skip]
    exact hQ _
  have hparams (Q : List Pattern → ParserState → Prop) :
      (params n).Yields s.advance.advance Q ↔ Q [] s.advance.advance := by
    simp only [hm, params, yields_bind, yields_get, heq]
    exact Iff.rfl
  simp only [binding, yields_bind, yields_bump, yields_eat_none (hname.ne_keyword .recKw)]
  refine hpattern _ fun p => (hparams _).mpr ?_
  simp only [List.isEmpty_nil, Bool.not_true, Bool.false_and, Parser.when, Bool.false_eq_true, if_false, yields_pure,
    behind?, yields_bind, yields_eat_none (hname.advance.ne_punct .colon), yields_behind heq]
  exact body_readsChain (by omega) hname.advance.advance

theorem decl_readsChain (hn : 2 * c.sources.length + 8 ≤ n) (h : AtChain fine name c s) (column : Nat) :
    (decl n column).Yields s fun d s' => ∃ place b, d = .binding place b ∧ ReadsChain fine c b.body s' := by
  obtain ⟨n, rfl⟩ : ∃ m, n = m + 1 := ⟨n - 1, by omega⟩
  simp only [decl, yields_bind, yields_get, h.peek]
  refine (binding_readsChain (by omega) h).mono fun b s' hb => ?_
  simp only [if_neg (hb.rest.ne_keyword .inKw), yields_pure]
  exact ⟨_, b, rfl, hb⟩

theorem decls_readsChain (hn : 2 * c.sources.length + 10 ≤ n) (h : AtChain fine name c s) :
    (decls n s.current.column).Yields s fun ds s' =>
      ∃ place b, ds = [.binding place b] ∧ ReadsChain fine c b.body s' := by
  obtain ⟨n, rfl⟩ : ∃ m, n = m + 1 := ⟨n - 1, by omega⟩
  refine (decls_only h.atEnd h.lineStart (Q := fun d s' => ∃ place b, d = .binding place b ∧
    ReadsChain fine c b.body s') ?_).mono fun ds s' ⟨d, hds, place, b, hd, hb⟩ => ⟨place, b, hd ▸ hds, hb⟩
  have hanchor : AtChain fine name c { s with anchor := some s.rest.length } := ⟨h.rest, h.inRange, h.errors⟩
  refine (decl_readsChain (n := n) (by omega) hanchor _).mono fun d s' ⟨place, b, hd, hb⟩ => ?_
  exact ⟨hb.rest.rest_nil, place, b, hd, hb⟩

theorem file_readsChain (hn : 2 * c.sources.length + 10 ≤ n) (h : AtChain fine name c s) :
    (file n).Yields s fun r s' => (fine → s'.errors = []) ∧
      ∃ place b, r.2 = [.binding place b] ∧ b.body.inOrder = c.map Operand.expr ∧ b.body.Graded := by
  have hheader : s.peek ≠ .keyword .moduleKw := h.peek ▸ (by simp)
  simp only [file, header, yields_bind, yields_get, if_pos hheader, yields_pure, yields_withOffside]
  have hoffside : AtChain fine name c { s with offside := s.current.column } := ⟨h.rest, h.inRange, h.errors⟩
  refine (decls_readsChain hn hoffside).mono fun ds s' h' => ?_
  obtain ⟨place, b, hds, hb⟩ := h'
  exact ⟨hb.rest.errors, place, b, hds, hb.inOrder, hb.graded⟩

end Parser

namespace SyntaxFile

/-- Operator precedence. A chain on one line is parsed as a graded tree that has its operands and operators, each in its
place, from left to right; there are no errors if no literal is out of range. -/
theorem parse_chain {c : Chain Operand} {name : Ident} {text : Text} {defines : List String}
    (h : c.BoundIn name text defines) (path : Path) (kind : SourceKind) :
    (∃ place b, (parse path text kind defines).decls = [.binding place b] ∧
      b.body.inOrder = c.map Operand.expr ∧ b.body.Graded) ∧
        (c.InRange → (significantTokens text defines).2 = [] → (parse path text kind defines).errors = []) := by
  obtain ⟨keyword, sign, htokens⟩ := h.tokens
  obtain ⟨t, ts, hrest, ht, hts⟩ := List.map_eq_cons_iff.mp htokens
  have hline : t.lineStart = true := start_lineStart text kind defines t (congrArg List.head? hrest)
  have hstart : Parser.AtChain (c.InRange ∧ (significantTokens text defines).2 = []) name c (start text kind defines) :=
    ⟨⟨t, ts, sign, hrest, congrArg Prod.fst ht, hline, hts, fun u hu => h.line u (hrest ▸ hu)⟩, And.left, And.right⟩
  have hread := Parser.file_readsChain (n := depthBound (start text kind defines).rest.length) (by
    rw [depthBound, hstart.length]
    omega) hstart
  obtain ⟨herrors, place, b, hdecls, hread⟩ := hread
  refine ⟨⟨place, b, hdecls, hread⟩, fun hinRange hnone => ?_⟩
  exact (congrArg (List.mergeSort · SyntaxError.le) (herrors ⟨hinRange, hnone⟩)).trans List.mergeSort_nil

/-- `a ^ 1 ^ -f b * 2` behind `let it = ` -/
def powers : Chain Operand where
  first := ⟨[], .ident ⟨"a", ⟨9, 10⟩⟩, []⟩
  more :=
    [((.concat, ⟨11, 12⟩), ⟨[], .int "1" ⟨13, 14⟩, []⟩),
      ((.concat, ⟨15, 16⟩), ⟨[⟨17, 18⟩], .ident ⟨"f", ⟨18, 19⟩⟩, [.ident ⟨"b", ⟨20, 21⟩⟩]⟩),
      ((.mul, ⟨22, 23⟩), ⟨[], .int "2" ⟨24, 25⟩, []⟩)]

theorem parse_powers : let text := "let it = a ^ 1 ^ -f b * 2".toList
    powers.BoundIn ⟨"it", ⟨4, 6⟩⟩ text [] ∧
      (∃ place b, (parse ⟨"powers.glx"⟩ text .script []).decls = [.binding place b] ∧
        b.body.inOrder = powers.map Operand.expr ∧ b.body.Graded) ∧
      (parse ⟨"powers.glx"⟩ text .script []).errors = [] := by
  have hbound : powers.BoundIn ⟨"it", ⟨4, 6⟩⟩ "let it = a ^ 1 ^ -f b * 2".toList [] :=
    ⟨⟨⟨0, 3⟩, ⟨7, 8⟩, by decide +kernel⟩, by decide +kernel⟩
  obtain ⟨hbody, herrors⟩ := parse_chain hbound ⟨"powers.glx"⟩ .script
  exact ⟨hbound, hbody, herrors (by decide +kernel) (by decide +kernel)⟩

end SyntaxFile
end ScriptAnalyzer

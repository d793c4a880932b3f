import Mathlib.Logic.Basic
import ScriptAnalyzer.Syntax.File

/-!
Syntax whose spans are replaced, each by a function of itself. What a tree says apart from its places is the
tree with all spans replaced by one.
-/

namespace ScriptAnalyzer

variable (m m' : Span → Span)

def Span.map (f : Nat → Nat) (s : Span) : Span := ⟨f s.start, f s.stop⟩

def Ident.mapSpans (i : Ident) : Ident := { i with span := m i.span }

def LongIdent.mapSpans (n : LongIdent) : LongIdent := ⟨n.head.mapSpans m, n.tail.map (·.mapSpans m)⟩

theorem Ident.mapSpans_mapSpans (i : Ident) : (i.mapSpans m).mapSpans m' = i.mapSpans (m' ∘ m) := rfl

theorem LongIdent.mapSpans_mapSpans (n : LongIdent) : (n.mapSpans m).mapSpans m' = n.mapSpans (m' ∘ m) := by
  simp only [mapSpans, List.map_map]
  rfl

namespace TypeExpr

mutual

def mapSpans : TypeExpr → TypeExpr
  | named s n => named (m s) (n.mapSpans m)
  | var s n => var (m s) (n.mapSpans m)
  | app s a c => app (m s) (mapSpans a) (c.mapSpans m)
  | array s e => array (m s) (mapSpans e)
  | function s d c => function (m s) (mapSpans d) (mapSpans c)
  | tuple s items => tuple (m s) (mapSpansOfAll items)
  | error s => error (m s)

def mapSpansOfAll : List TypeExpr → List TypeExpr
  | [] => []
  | t :: ts => mapSpans t :: mapSpansOfAll ts

end

theorem mapSpansOfAll_eq (ts : List TypeExpr) : mapSpansOfAll m ts = ts.map (mapSpans m) := by
  induction ts with
  | nil => rfl
  | cons t ts ih => rw [mapSpansOfAll, ih, List.map_cons]

theorem mapSpans_tuple (s : Span) (items : List TypeExpr) :
    (tuple s items).mapSpans m = tuple (m s) (items.map (mapSpans m)) :=
  congrArg (tuple (m s)) (mapSpansOfAll_eq m items)

theorem span_mapSpans (t : TypeExpr) : (t.mapSpans m).span = m t.span := by
  cases t <;> rfl

theorem withSpan_mapSpans (s : Span) (t : TypeExpr) :
    (t.withSpan s).mapSpans m = (t.mapSpans m).withSpan (m s) := by
  cases t <;> rfl

mutual

theorem mapSpans_mapSpans : ∀ t : TypeExpr, (t.mapSpans m).mapSpans m' = t.mapSpans (m' ∘ m)
  | named _ n => congrArg (named _) (n.mapSpans_mapSpans m m')
  | var _ _ => rfl
  | app _ a c => congrArg₂ (app _) (mapSpans_mapSpans a) (c.mapSpans_mapSpans m m')
  | array _ e => congrArg (array _) (mapSpans_mapSpans e)
  | function _ d c => congrArg₂ (function _) (mapSpans_mapSpans d) (mapSpans_mapSpans c)
  | tuple _ items => congrArg (tuple _) (mapSpansOfAll_mapSpans items)
  | error _ => rfl

theorem mapSpansOfAll_mapSpans : ∀ ts : List TypeExpr,
    mapSpansOfAll m' (mapSpansOfAll m ts) = mapSpansOfAll (m' ∘ m) ts
  | [] => rfl
  | t :: ts => congrArg₂ List.cons (mapSpans_mapSpans t) (mapSpansOfAll_mapSpans ts)

end

end TypeExpr

namespace Pattern

mutual

def mapSpans : Pattern → Pattern
  | named s n => named (m s) (n.mapSpans m)
  | wildcard s => wildcard (m s)
  | unit s => unit (m s)
  | tuple s items => tuple (m s) (mapSpansOfAll items)
  | typed s p t => typed (m s) (mapSpans p) (t.mapSpans m)
  | error s => error (m s)

def mapSpansOfAll : List Pattern → List Pattern
  | [] => []
  | p :: ps => mapSpans p :: mapSpansOfAll ps

end

theorem mapSpansOfAll_eq (ps : List Pattern) : mapSpansOfAll m ps = ps.map (mapSpans m) := by
  induction ps with
  | nil => rfl
  | cons p ps ih => rw [mapSpansOfAll, ih, List.map_cons]

theorem mapSpans_tuple (s : Span) (items : List Pattern) :
    (tuple s items).mapSpans m = tuple (m s) (items.map (mapSpans m)) :=
  congrArg (tuple (m s)) (mapSpansOfAll_eq m items)

theorem span_mapSpans (p : Pattern) : (p.mapSpans m).span = m p.span := by
  cases p <;> rfl

theorem withSpan_mapSpans (s : Span) (p : Pattern) :
    (p.withSpan s).mapSpans m = (p.mapSpans m).withSpan (m s) := by
  cases p <;> rfl

mutual

theorem mapSpans_mapSpans : ∀ p : Pattern, (p.mapSpans m).mapSpans m' = p.mapSpans (m' ∘ m)
  | named _ _ | wildcard _ | unit _ | error _ => rfl
  | tuple _ items => congrArg (tuple _) (mapSpansOfAll_mapSpans items)
  | typed _ p t => congrArg₂ (typed _) (mapSpans_mapSpans p) (t.mapSpans_mapSpans m m')

theorem mapSpansOfAll_mapSpans : ∀ ps : List Pattern,
    mapSpansOfAll m' (mapSpansOfAll m ps) = mapSpansOfAll (m' ∘ m) ps
  | [] => rfl
  | p :: ps => congrArg₂ List.cons (mapSpans_mapSpans p) (mapSpansOfAll_mapSpans ps)

end

theorem map_mapSpans (ps : List Pattern) :
    (ps.map (·.mapSpans m)).map (·.mapSpans m') = ps.map (·.mapSpans (m' ∘ m)) := by
  rw [List.map_map]
  exact congrArg (ps.map ·) (funext fun p => p.mapSpans_mapSpans m m')

theorem isError_mapSpans (p : Pattern) : (p.mapSpans m).isError = p.isError := by
  cases p <;> rfl

theorem isNamed_mapSpans (p : Pattern) : (p.mapSpans m).isNamed = p.isNamed := by
  cases p <;> rfl

theorem name?_mapSpans (p : Pattern) : (p.mapSpans m).name? = p.name?.map (·.mapSpans m) := by
  cases p with
  | typed s p t => cases p <;> rfl
  | _ => rfl

end Pattern

def LetHead.mapSpans (h : LetHead) : LetHead where
  isRec := h.isRec
  pattern := h.pattern.mapSpans m
  params := h.params.map (·.mapSpans m)
  returnType := h.returnType.map (·.mapSpans m)
  span := m h.span

theorem LetHead.mapSpans_mapSpans (h : LetHead) : (h.mapSpans m).mapSpans m' = h.mapSpans (m' ∘ m) := by
  obtain ⟨isRec, pattern, params, returnType, span⟩ := h
  simp only [mapSpans, Pattern.mapSpans_mapSpans, Pattern.map_mapSpans, Option.map_map, Function.comp_def,
    TypeExpr.mapSpans_mapSpans]

namespace Expr

mutual

def mapSpans : Expr → Expr
  | literal s v => literal (m s) v
  | ident n => ident (n.mapSpans m)
  | member s target dot name => member (m s) (mapSpans target) (m dot) (name.map (·.mapSpans m))
  | call s callee args parens => call (m s) (mapSpans callee) (mapSpansOfAll args) (m parens)
  | app s function argument => app (m s) (mapSpans function) (mapSpans argument)
  | neg s operand => neg (m s) (mapSpans operand)
  | binary s op opSpan lhs rhs => binary (m s) op (m opSpan) (mapSpans lhs) (mapSpans rhs)
  | conditional s condition thenBranch elseBranch =>
    conditional (m s) (mapSpans condition) (mapSpans thenBranch)
      (match elseBranch with | some b => some (mapSpans b) | none => none)
  | lambda s params body => lambda (m s) (params.map (·.mapSpans m)) (mapSpans body)
  | letIn s head value body => letIn (m s) (head.mapSpans m) (mapSpans value) (mapSpans body)
  | sequential s first second => sequential (m s) (mapSpans first) (mapSpans second)
  | tuple s items => tuple (m s) (mapSpansOfAll items)
  | list s items => list (m s) (mapSpansOfAll items)
  | record s fields => record (m s) (mapSpansOfFields fields)
  | paren s inner => paren (m s) (mapSpans inner)
  | typed s inner type => typed (m s) (mapSpans inner) (type.mapSpans m)
  | error s => error (m s)

def mapSpansOfAll : List Expr → List Expr
  | [] => []
  | e :: es => mapSpans e :: mapSpansOfAll es

def mapSpansOfFields : List (Ident × Expr) → List (Ident × Expr)
  | [] => []
  | (name, e) :: fs => (name.mapSpans m, mapSpans e) :: mapSpansOfFields fs

end

theorem mapSpansOfAll_eq (es : List Expr) : mapSpansOfAll m es = es.map (mapSpans m) := by
  induction es with
  | nil => rfl
  | cons e es ih => rw [mapSpansOfAll, ih, List.map_cons]

theorem mapSpansOfFields_eq (fs : List (Ident × Expr)) :
    mapSpansOfFields m fs = fs.map fun f => (f.1.mapSpans m, f.2.mapSpans m) := by
  induction fs with
  | nil => rfl
  | cons f fs ih => rw [mapSpansOfFields, ih, List.map_cons]

theorem mapSpans_tuple (s : Span) (items : List Expr) :
    (tuple s items).mapSpans m = tuple (m s) (items.map (mapSpans m)) :=
  congrArg (tuple (m s)) (mapSpansOfAll_eq m items)

theorem mapSpans_list (s : Span) (items : List Expr) :
    (list s items).mapSpans m = list (m s) (items.map (mapSpans m)) :=
  congrArg (list (m s)) (mapSpansOfAll_eq m items)

theorem mapSpans_record (s : Span) (fields : List (Ident × Expr)) :
    (record s fields).mapSpans m = record (m s) (fields.map fun f => (f.1.mapSpans m, f.2.mapSpans m)) :=
  congrArg (record (m s)) (mapSpansOfFields_eq m fields)

theorem mapSpans_call (s : Span) (callee : Expr) (args : List Expr) (parens : Span) :
    (call s callee args parens).mapSpans m = call (m s) (callee.mapSpans m) (args.map (mapSpans m)) (m parens) :=
  congrArg (call (m s) (callee.mapSpans m) · (m parens)) (mapSpansOfAll_eq m args)

theorem mapSpans_conditional (s : Span) (condition thenBranch : Expr) (elseBranch : Option Expr) :
    (conditional s condition thenBranch elseBranch).mapSpans m =
      conditional (m s) (condition.mapSpans m) (thenBranch.mapSpans m) (elseBranch.map (mapSpans m)) := by
  cases elseBranch <;> rfl

theorem span_mapSpans (e : Expr) : (e.mapSpans m).span = m e.span := by
  cases e with
  | conditional => rw [mapSpans_conditional]; rfl
  | _ => rfl

mutual

theorem mapSpans_mapSpans : ∀ e : Expr, (e.mapSpans m).mapSpans m' = e.mapSpans (m' ∘ m)
  | literal _ _ | ident _ | error _ => rfl
  | member s target dot name =>
    congrArg₂ (member _ · _ ·) (mapSpans_mapSpans target) (Option.map_map ..)
  | call _ callee args _ => congrArg₂ (call _ · · _) (mapSpans_mapSpans callee) (mapSpansOfAll_mapSpans args)
  | app _ function argument => congrArg₂ (app _) (mapSpans_mapSpans function) (mapSpans_mapSpans argument)
  | neg _ operand => congrArg (neg _) (mapSpans_mapSpans operand)
  | binary _ op _ lhs rhs => congrArg₂ (binary _ op _) (mapSpans_mapSpans lhs) (mapSpans_mapSpans rhs)
  | conditional _ condition thenBranch none =>
    congrArg₂ (conditional _ · · none) (mapSpans_mapSpans condition) (mapSpans_mapSpans thenBranch)
  | conditional _ condition thenBranch (some elseBranch) => by
    simp only [mapSpans, mapSpans_mapSpans condition, mapSpans_mapSpans thenBranch, mapSpans_mapSpans elseBranch]
    rfl
  | lambda _ params body => congrArg₂ (lambda _) (Pattern.map_mapSpans m m' params) (mapSpans_mapSpans body)
  | letIn _ head value body => by
    simp only [mapSpans, head.mapSpans_mapSpans, mapSpans_mapSpans value, mapSpans_mapSpans body]
    rfl
  | sequential _ first second => congrArg₂ (sequential _) (mapSpans_mapSpans first) (mapSpans_mapSpans second)
  | tuple _ items => congrArg (tuple _) (mapSpansOfAll_mapSpans items)
  | list _ items => congrArg (list _) (mapSpansOfAll_mapSpans items)
  | record _ fields => congrArg (record _) (mapSpansOfFields_mapSpans fields)
  | paren _ inner => congrArg (paren _) (mapSpans_mapSpans inner)
  | typed _ inner type => congrArg₂ (typed _) (mapSpans_mapSpans inner) (type.mapSpans_mapSpans m m')

theorem mapSpansOfAll_mapSpans : ∀ es : List Expr,
    mapSpansOfAll m' (mapSpansOfAll m es) = mapSpansOfAll (m' ∘ m) es
  | [] => rfl
  | e :: es => congrArg₂ List.cons (mapSpans_mapSpans e) (mapSpansOfAll_mapSpans es)

theorem mapSpansOfFields_mapSpans : ∀ fs : List (Ident × Expr),
    mapSpansOfFields m' (mapSpansOfFields m fs) = mapSpansOfFields (m' ∘ m) fs
  | [] => rfl
  | (name, e) :: fs => congrArg₂ (fun e fs => (name.mapSpans (m' ∘ m), e) :: fs) (mapSpans_mapSpans e) (mapSpansOfFields_mapSpans fs)

end

end Expr

def Binding.mapSpans (b : Binding) : Binding := { b.toLetHead.mapSpans m with body := b.body.mapSpans m }

theorem Binding.mapSpans_mapSpans (b : Binding) : (b.mapSpans m).mapSpans m' = b.mapSpans (m' ∘ m) := by
  have hhead : ((b.mapSpans m).mapSpans m').toLetHead = (b.mapSpans (m' ∘ m)).toLetHead :=
    b.toLetHead.mapSpans_mapSpans m m'
  have hbody : ((b.mapSpans m).mapSpans m').body = (b.mapSpans (m' ∘ m)).body := b.body.mapSpans_mapSpans m m'
  generalize (b.mapSpans m).mapSpans m' = c at hhead hbody
  generalize b.mapSpans (m' ∘ m) = d at hhead hbody
  obtain ⟨head, body⟩ := c
  obtain ⟨head', body'⟩ := d
  dsimp only at hhead hbody
  rw [hhead, hbody]

def TypeBody.mapSpans : TypeBody → TypeBody
  | record fields => record (fields.map fun f => (f.1.mapSpans m, f.2.mapSpans m))
  | abbreviation type => abbreviation (type.mapSpans m)

def Directive.mapSpans (d : Directive) : Directive :=
  ⟨d.name.mapSpans m, d.args.map (·.mapSpans m), m d.span⟩

namespace Decl

mutual

def mapSpans : Decl → Decl
  | binding s b => binding (m s) (b.mapSpans m)
  | «open» s path => «open» (m s) (path.mapSpans m)
  | module s name decls => module (m s) (name.mapSpans m) (mapSpansOfAll decls)
  | type s name body => type (m s) (name.mapSpans m) (body.mapSpans m)
  | directive s d => directive (m s) (d.mapSpans m)
  | expr s e => expr (m s) (e.mapSpans m)
  | error s => error (m s)

def mapSpansOfAll : List Decl → List Decl
  | [] => []
  | d :: ds => mapSpans d :: mapSpansOfAll ds

end

theorem mapSpansOfAll_eq (ds : List Decl) : mapSpansOfAll m ds = ds.map (mapSpans m) := by
  induction ds with
  | nil => rfl
  | cons d ds ih => rw [mapSpansOfAll, ih, List.map_cons]

end Decl

/-- The declaration without the places it was read from. -/
def Decl.unplaced (d : Decl) : Decl := d.mapSpans fun _ => .empty 0

def LongIdent.unplaced (n : LongIdent) : LongIdent := n.mapSpans fun _ => .empty 0

def Ident.unplaced (i : Ident) : Ident := i.mapSpans fun _ => .empty 0

def TypeExpr.unplaced (t : TypeExpr) : TypeExpr := t.mapSpans fun _ => .empty 0

def Pattern.unplaced (p : Pattern) : Pattern := p.mapSpans fun _ => .empty 0

def LetHead.unplaced (h : LetHead) : LetHead := h.mapSpans fun _ => .empty 0

def Expr.unplaced (e : Expr) : Expr := e.mapSpans fun _ => .empty 0

theorem TypeExpr.unplaced_withSpan (t : TypeExpr) (s : Span) : (t.withSpan s).unplaced = t.unplaced := by
  cases t <;> rfl

theorem Pattern.unplaced_withSpan (p : Pattern) (s : Span) : (p.withSpan s).unplaced = p.unplaced := by
  cases p <;> rfl

def SyntaxError.mapSpan (e : SyntaxError) : SyntaxError := { e with span := m e.span }

/-- The error without its place. -/
def SyntaxError.unplaced (e : SyntaxError) : SyntaxError := e.mapSpan fun _ => .empty 0

end ScriptAnalyzer

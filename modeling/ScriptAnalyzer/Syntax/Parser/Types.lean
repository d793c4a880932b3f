import ScriptAnalyzer.Syntax.Parser.State

/-!
Type annotations and patterns. The number bounds the depth of the recursion; a number above twice the
count of tokens is never used up.
-/

namespace ScriptAnalyzer
namespace Parser

def missingType : Parser TypeExpr := do
  missing "a type"
  return .error (.empty (← get).prevEnd)

/-- Constructors and brackets behind a type, on the same line. -/
def typeSuffixes : Nat → TypeExpr → Parser TypeExpr
  | 0, type => return type
  | n + 1, type => do
    let s ← get
    if s.current.lineStart then return type
    match s.peek with
    | .ident _ =>
      match ← longIdent? with
      | some ctor => typeSuffixes n (.app (type.span.merge ctor.span) type ctor)
      | none => return type
    | .punct .lbracket =>
      if s.ahead 1 = .punct .rbracket then
        skip
        let close ← bump
        typeSuffixes n (.array (type.span.merge close.span) type)
      else return type
    | _ => return type

mutual

/-- A type: function types associate to the right. -/
def type : Nat → Parser TypeExpr
  | 0 => missingType
  | n + 1 => do
    let lhs ← tupleType n
    let s ← get
    if s.peek = .operator .arrow && !s.isOffside then
      skip
      let rhs ← type n
      return .function (lhs.span.merge rhs.span) lhs rhs
    else return lhs

def tupleType : Nat → Parser TypeExpr
  | 0 => missingType
  | n + 1 => do
    let first ← suffixedType n
    let more ← tupleTypeItems n
    match more.getLast? with
    | some last => return .tuple (first.span.merge last.span) (first :: more)
    | none => return first

/-- The further items of a tuple type, each behind a star. -/
def tupleTypeItems : Nat → Parser (List TypeExpr)
  | 0 => return []
  | n + 1 => do
    let s ← get
    if s.peek = .operator .star && !s.isOffside then
      skip
      let item ← suffixedType n
      let more ← tupleTypeItems n
      return item :: more
    else return []

def suffixedType : Nat → Parser TypeExpr
  | 0 => missingType
  | n + 1 => do
    let atom ← atomicType n
    typeSuffixes n atom

def atomicType : Nat → Parser TypeExpr
  | 0 => missingType
  | n + 1 => do
    let s ← get
    if s.isOffside then missingType
    else match s.peek with
    | .ident _ =>
      match ← longIdent? with
      | some name => return .named name.span name
      | none => missingType
    | .typeVar text =>
      let t ← bump
      return .var t.span ⟨text, t.span⟩
    | .punct .lparen =>
      let opener ← bump
      let inner ← nested (type n)
      let stop ← closing .rparen { cause := .unclosedDelimiter '(', span := opener.span }
      return inner.withSpan ⟨opener.span.start, stop⟩
    | _ => missingType

end

/-- Reports that the next token starts no pattern. -/
def invalidPattern : Parser Pattern := do
  let t := (← get).current
  error .invalidPattern t.span
  return .error (.empty t.span.start)

mutual

/-- A name, a wildcard, the unit, or a pattern in parentheses. -/
def atomicPattern : Nat → Parser Pattern
  | 0 => invalidPattern
  | n + 1 => do
    let t := (← get).current
    match t.token with
    | .ident text =>
      skip
      return if text = "_" then .wildcard t.span else .named t.span ⟨text, t.span⟩
    | .punct .lparen =>
      skip
      match ← eat (.punct .rparen) with
      | some close => return .unit (t.span.merge close)
      | none =>
        let inner ← nested (tuplePattern n)
        let stop ← closing .rparen { cause := .unclosedDelimiter '(', span := t.span }
        return inner.withSpan ⟨t.span.start, stop⟩
    | _ => invalidPattern

def tuplePattern : Nat → Parser Pattern
  | 0 => invalidPattern
  | n + 1 => do
    let first ← annotatedPattern n
    let more ← tuplePatternItems n first
    match more.getLast? with
    | some last => return .tuple (first.span.merge last.span) (first :: more)
    | none => return first

/-- The items behind `item`, each behind a comma. An error ends the tuple. -/
def tuplePatternItems : Nat → Pattern → Parser (List Pattern)
  | 0, _ => return []
  | n + 1, item => do
    if item.isError then return []
    match ← eat (.punct .comma) with
    | none => return []
    | some _ =>
      let item ← annotatedPattern n
      let more ← tuplePatternItems n item
      return item :: more

def annotatedPattern : Nat → Parser Pattern
  | 0 => invalidPattern
  | n + 1 => do
    let pattern ← atomicPattern n
    match ← eat (.punct .colon) with
    | none => return pattern
    | some _ =>
      let annotation ← type n
      return .typed (pattern.span.merge annotation.span) pattern annotation

end

/-- Patterns one after the other, as parameters stand. -/
def params : Nat → Parser (List Pattern)
  | 0 => return []
  | n + 1 => do
    let s ← get
    match s.peek with
    | .ident _ | .punct .lparen =>
      if s.isOffside then return []
      let p ← atomicPattern n
      let ps ← params n
      return p :: ps
    | _ => return []

end Parser
end ScriptAnalyzer

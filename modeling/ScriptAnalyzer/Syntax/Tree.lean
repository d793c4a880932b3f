import ScriptAnalyzer.Text.Span

/-!
Syntax trees. Every node knows the bytes it was read from. What is missing or malformed in the
source is an error node, or a member access without a name, so a tree exists for every source.
-/

namespace ScriptAnalyzer

structure Ident where
  text : String
  span : Span
deriving DecidableEq, Repr, Inhabited

/-- A dotted name; it has at least one segment. -/
structure LongIdent where
  head : Ident
  tail : List Ident
deriving DecidableEq, Repr, Inhabited

namespace LongIdent

def parts (n : LongIdent) : List Ident := n.head :: n.tail

def segments (n : LongIdent) : List String := n.parts.map (·.text)

def last (n : LongIdent) : Ident := n.tail.getLast?.getD n.head

def span (n : LongIdent) : Span := n.head.span.merge n.last.span

/-- Writes the name with dots between its segments. -/
def render (n : LongIdent) : String := ".".intercalate n.segments

end LongIdent

inductive TypeExpr where
  | named (span : Span) (name : LongIdent)
  | var (span : Span) (name : Ident)
  | app (span : Span) (argument : TypeExpr) (constructor : LongIdent)
  | array (span : Span) (element : TypeExpr)
  | function (span : Span) (domain codomain : TypeExpr)
  | tuple (span : Span) (items : List TypeExpr)
  | error (span : Span)
deriving Repr, Inhabited

namespace TypeExpr

def span : TypeExpr → Span
  | named s _ | var s _ | app s _ _ | array s _ | function s _ _ | tuple s _ | error s => s

def withSpan (s : Span) : TypeExpr → TypeExpr
  | named _ n => named s n
  | var _ n => var s n
  | app _ a c => app s a c
  | array _ e => array s e
  | function _ d c => function s d c
  | tuple _ is => tuple s is
  | error _ => error s

end TypeExpr

inductive Pattern where
  | named (span : Span) (name : Ident)
  | wildcard (span : Span)
  | unit (span : Span)
  | tuple (span : Span) (items : List Pattern)
  | typed (span : Span) (inner : Pattern) (type : TypeExpr)
  | error (span : Span)
deriving Repr, Inhabited

namespace Pattern

def span : Pattern → Span
  | named s _ | wildcard s | unit s | tuple s _ | typed s _ _ | error s => s

def withSpan (s : Span) : Pattern → Pattern
  | named _ n => named s n
  | wildcard _ => wildcard s
  | unit _ => unit s
  | tuple _ is => tuple s is
  | typed _ p t => typed s p t
  | error _ => error s

mutual

/-- The names that the pattern binds, from left to right. -/
def boundNames : Pattern → List Ident
  | named _ n => [n]
  | tuple _ items => boundNamesOfAll items
  | typed _ inner _ => boundNames inner
  | wildcard _ | unit _ | error _ => []

def boundNamesOfAll : List Pattern → List Ident
  | [] => []
  | p :: ps => boundNames p ++ boundNamesOfAll ps

end

/-- The name of a pattern that is a name, with or without an annotation. -/
def name? : Pattern → Option Ident
  | named _ n => some n
  | typed _ (named _ n) _ => some n
  | _ => none

def isNamed : Pattern → Bool
  | named _ _ => true
  | _ => false

def isError : Pattern → Bool
  | error _ => true
  | _ => false

end Pattern

inductive Literal where
  | int (value : Nat)
  /-- A floating-point number, by the bits of the nearest double-precision value. -/
  | float (bits : UInt64)
  | string (value : String)
  | char (value : Char)
  | bool (value : Bool)
  | unit
deriving DecidableEq, Repr

inductive BinaryOp where
  | pipe | or | and | eq | notEq | lt | ltEq | gt | gtEq | concat | add | sub | mul | div | rem
deriving DecidableEq, Repr

namespace BinaryOp

def text : BinaryOp → String
  | pipe => "|>"
  | or => "||"
  | and => "&&"
  | eq => "="
  | notEq => "<>"
  | lt => "<"
  | ltEq => "<="
  | gt => ">"
  | gtEq => ">="
  | concat => "^"
  | add => "+"
  | sub => "-"
  | mul => "*"
  | div => "/"
  | rem => "%"

def isComparison : BinaryOp → Bool
  | eq | notEq | lt | ltEq | gt | gtEq => true
  | _ => false

end BinaryOp

structure LetHead where
  isRec : Bool
  pattern : Pattern
  /-- The parameters of a function; a value has none. -/
  params : List Pattern
  returnType : Option TypeExpr
  /-- The whole binding from its keyword to the end of the right-hand side. -/
  span : Span
deriving Repr, Inhabited

namespace LetHead

/-- The bound name, if the pattern is a name. -/
def name? (h : LetHead) : Option Ident := h.pattern.name?

def isFunction (h : LetHead) : Bool := !h.params.isEmpty

end LetHead

inductive Expr where
  | literal (span : Span) (value : Literal)
  | ident (name : Ident)
  /-- A member of a value or an entity; the name may still be missing. -/
  | member (span : Span) (target : Expr) (dot : Span) (name : Option Ident)
  /-- A call with its arguments in parentheses right behind the callee. -/
  | call (span : Span) (callee : Expr) (args : List Expr) (parens : Span)
  | app (span : Span) (function argument : Expr)
  | neg (span : Span) (operand : Expr)
  | binary (span : Span) (op : BinaryOp) (opSpan : Span) (lhs rhs : Expr)
  | conditional (span : Span) (condition thenBranch : Expr) (elseBranch : Option Expr)
  | lambda (span : Span) (params : List Pattern) (body : Expr)
  /-- A binding, its right-hand side and the expression it scopes over. -/
  | letIn (span : Span) (head : LetHead) (value body : Expr)
  | sequential (span : Span) (first second : Expr)
  | tuple (span : Span) (items : List Expr)
  | list (span : Span) (items : List Expr)
  | record (span : Span) (fields : List (Ident × Expr))
  | paren (span : Span) (inner : Expr)
  | typed (span : Span) (inner : Expr) (type : TypeExpr)
  | error (span : Span)
deriving Repr, Inhabited

namespace Expr

def span : Expr → Span
  | literal s _ | member s _ _ _ | call s _ _ _ | app s _ _ | neg s _ | binary s _ _ _ _
  | conditional s _ _ _ | lambda s _ _ | letIn s _ _ _ | sequential s _ _ | tuple s _ | list s _
  | record s _ | paren s _ | typed s _ _ | error s => s
  | ident n => n.span

/-- The direct subexpressions in the order of the source. -/
def children : Expr → List Expr
  | literal _ _ | ident _ | error _ => []
  | member _ target _ _ => [target]
  | call _ callee args _ => callee :: args
  | app _ function argument => [function, argument]
  | neg _ inner | paren _ inner | typed _ inner _ => [inner]
  | binary _ _ _ lhs rhs => [lhs, rhs]
  | conditional _ condition thenBranch elseBranch => condition :: thenBranch :: elseBranch.toList
  | lambda _ _ body => [body]
  | letIn _ _ value body => [value, body]
  | sequential _ first second => [first, second]
  | tuple _ items | list _ items => items
  | record _ fields => fields.map (·.2)

/-- The dotted name that a chain of member accesses spells. -/
def longName? : Expr → Option LongIdent
  | ident n => some ⟨n, []⟩
  | member _ target _ (some name) => (longName? target).map fun n => { n with tail := n.tail ++ [name] }
  | _ => none

mutual

/-- The expression and all below it, each before its children. -/
def preorder : Expr → List Expr
  | e@(literal _ _) | e@(ident _) | e@(error _) => [e]
  | e@(member _ target _ _) => e :: preorder target
  | e@(call _ callee args _) => e :: (preorder callee ++ preorderOfAll args)
  | e@(app _ function argument) => e :: (preorder function ++ preorder argument)
  | e@(neg _ inner) | e@(paren _ inner) | e@(typed _ inner _) => e :: preorder inner
  | e@(binary _ _ _ lhs rhs) => e :: (preorder lhs ++ preorder rhs)
  | e@(conditional _ condition thenBranch elseBranch) =>
    e :: (preorder condition ++ preorder thenBranch ++
      match elseBranch with | some b => preorder b | none => [])
  | e@(lambda _ _ body) => e :: preorder body
  | e@(letIn _ _ value body) => e :: (preorder value ++ preorder body)
  | e@(sequential _ first second) => e :: (preorder first ++ preorder second)
  | e@(tuple _ items) | e@(list _ items) => e :: preorderOfAll items
  | e@(record _ fields) => e :: preorderOfFields fields

def preorderOfAll : List Expr → List Expr
  | [] => []
  | e :: es => preorder e ++ preorderOfAll es

def preorderOfFields : List (Ident × Expr) → List Expr
  | [] => []
  | (_, e) :: fs => preorder e ++ preorderOfFields fs

end

end Expr

structure Binding extends LetHead where
  body : Expr
deriving Repr, Inhabited

inductive TypeBody where
  | record (fields : List (Ident × TypeExpr))
  | abbreviation (type : TypeExpr)
deriving Repr

/-- A directive line; its arguments are names, numerals and the contents of strings. -/
structure Directive where
  name : Ident
  args : List Ident
  span : Span
deriving DecidableEq, Repr

inductive Decl where
  | binding (span : Span) (binding : Binding)
  | «open» (span : Span) (path : LongIdent)
  | module (span : Span) (name : Ident) (decls : List Decl)
  | type (span : Span) (name : Ident) (body : TypeBody)
  | directive (span : Span) (directive : Directive)
  | expr (span : Span) (expr : Expr)
  | error (span : Span)
deriving Repr

namespace Decl

def span : Decl → Span
  | binding s _ | «open» s _ | module s _ _ | type s _ _ | directive s _ | expr s _ | error s => s

mutual

/-- All expressions of a declaration, each before its children. -/
def exprs : Decl → List Expr
  | binding _ b => b.body.preorder
  | module _ _ decls => exprsOfAll decls
  | expr _ e => e.preorder
  | «open» _ _ | type _ _ _ | directive _ _ | error _ => []

def exprsOfAll : List Decl → List Expr
  | [] => []
  | d :: ds => exprs d ++ exprsOfAll ds

end

end Decl

end ScriptAnalyzer

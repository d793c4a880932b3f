import ScriptAnalyzer.Typing.Application

/-!
The types of expressions.

An expression is checked against the type that is expected of it, if there is one: the expected type is
passed into functions, branches and the heads of applications, and compared with the found type at the
end. Without an expected type the result is the meaning of the expression as something that may be
called. Bindings inside expressions are not generalised.
-/

namespace ScriptAnalyzer

def Literal.type : Literal → Ty
  | .int _ => .int
  | .float _ => .float
  | .string _ => .string
  | .char _ => .char
  | .bool _ => .bool
  | .unit => .unit

namespace Expr

def bare : Expr → Expr
  | paren _ inner => bare inner
  | e => e

/-- Whether the expression is a name or a member access. -/
def isName : Expr → Bool
  | ident _ | member _ _ _ _ => true
  | _ => false

def isLambda : Expr → Bool
  | lambda _ _ _ => true
  | _ => false

/-- The last name of a callee; empty if it has none. -/
def calleeName : Expr → String
  | ident name => name.text
  | member _ _ _ (some name) => name.text
  | paren _ inner => calleeName inner
  | _ => ""

end Expr

namespace Checker

/-- Uses the meaning of an expression as a value. -/
def valueOf (e : Expr) (callee : Checker Callee) : Checker Ty := do
  calleeType e.bare.span (← callee)

/-- Compares the type of an expression with the expected one. -/
def settle (span : Span) (expected : Option Ty) (callee : Checker Callee) : Checker Callee :=
  match expected with
  | none => callee
  | some t => do
    let found ← calleeType span (← callee)
    expect t found span
    return .value t

/-- Warns about a value that is thrown away. A value whose type is not known yet becomes the unit. -/
def warnIgnored (t : Ty) (span : Span) : Checker Unit := do
  let t ← shallow t
  match t with
  | .var _ =>
    let _ ← unify .unit t
  | .error => return
  | t => unless t.isAtom "unit" do report (.ignoredResult (← zonk t)) span

/-- Warns about a binder that is not used, unless its name starts with an underscore. -/
def warnIfUnused (index : Nat) : Checker Unit := do
  match ← binderAt? index with
  | none => return
  | some binder =>
    unless binder.used || binder.simpleName.toList.head? == some '_' do
      report (.unused binder.simpleName) binder.span

def warnUnused (bound : List Nat) : Checker Unit := do
  if (← get).options.unused then bound.forM warnIfUnused

/-- The type of an arithmetic operation on operands of type `t`. Operands of a type that is not known
yet are integers. -/
def arithmetic (op : BinaryOp) (t : Ty) (span : Span) : Checker Ty := do
  match ← shallow t with
  | .var _ =>
    let _ ← unify t .int
    return .int
  | .error => return .error
  | t =>
    if t.isAtom "int" || t.isAtom "float" || (op == .add && t.isAtom "string") then return t
    else
      report (.unsupportedOperator (← zonk t) op) span
      return .error

/-- The arguments of a method in front of a single argument: those of a tuple, or none for the unit,
with or without parentheses. -/
def methodArgs (arg : Expr) (type : Checker Ty) : Checker (List Ty) := do
  let inner := match arg with
    | .paren _ inner => inner
    | e => e
  match inner with
  | .literal _ .unit => return []
  | .tuple _ _ =>
    match ← type with
    | .tuple ts => return ts
    | t => return [t]
  | _ => return [← type]

/-- The type of the field `name` in a record, if it has the field. -/
def fieldType? (record : Option Entity) (name : Ident) : Checker (Option Ty) := do
  match record with
  | none => return none
  | some record =>
    let field := (record.member? name.text).bind fun m =>
      match m.kind with
      | .field t => some (m, t)
      | _ => none
    match field with
    | some (m, t) =>
      mention name.span (.fixed (m.symbol record.path))
      return some t
    | none =>
      report (.undefinedLabelIn name.text record.name) name.span
      return none

/-- The record that a record expression builds: the latest one that has the first field. -/
def recordOf? (span : Span) (fields : List (Ident × Expr)) : Checker (Option Entity) := do
  match fields with
  | [] =>
    report (.undefinedLabel "") span
    return none
  | (name, _) :: _ =>
    match (← get).entities.recordWithField? name.text with
    | some record => return some record
    | none =>
      report (.undefinedLabel name.text) name.span
      return none

/-- Checks a binding that can be named up to `stop`. `value` checks the right-hand side against an
expected type, or finds its type. Bindings of a module are generalised if they are functions. Returns
the binders that stay in scope. -/
def checkBinding (head : LetHead) (body : Expr) (value : Option Ty → Checker Ty) (stop : Nat)
    (ofModule : Bool) : Checker (List Nat) := do
  let behind : Span := ⟨head.span.stop, stop⟩
  if head.isFunction then
    let names := head.params.map paramName
    let own ← fresh
    let recursive ←
      match head.isRec, head.name? with
      | true, some name => some <$> bind name (.mono own) names ⟨head.span.start, stop⟩ ofModule
      | _, _ => pure none
    let (params, ret) ← withScope do
      let (params, _) ← bindParams body.span head.params none
      let ret ← match head.returnType with
        | some written => annotation written
        | none => fresh
      let _ ← value (some ret)
      return (params, ret)
    let t := Ty.curried params ret
    expect t own ((head.name?.map (·.span)).getD head.span)
    let scheme ← if ofModule then pure ((← get).store.generalize t) else pure (.mono t)
    match recursive, head.name? with
    | some index, _ =>
      modify fun s => { s.demand .binder (index < s.binders.size) with
        binders := s.binders.modify index fun b => { b with scheme } }
      return [index]
    | none, some name => return [← bind name scheme names behind ofModule]
    | none, none => return []
  else
    let t ←
      match head.returnType with
      | some written => do
        let t ← annotation written
        let _ ← value (some t)
        pure t
      | none => value none
    match head.pattern with
    | .named _ name =>
      let scheme ←
        if ofModule && body.isLambda then pure ((← get).store.generalize t) else pure (.mono t)
      return [← bind name scheme [] behind ofModule]
    | pattern => bindPattern behind ofModule pattern t

mutual

/-- The meaning of an expression, or its type if one is expected of it. -/
def expr : Expr → Option Ty → Checker Callee
  | .literal span l, expected => settle span expected (return .value l.type)
  | .ident name, expected => settle name.span expected (nameCallee name)
  | .member span target dot name, expected => settle span expected do
    match ← entityOf? target with
    | some path => entityMember span dot path name
    | none =>
      let receiver ← valueOf target (expr target none)
      valueMember span dot receiver name
  | .call span callee args parens, expected => settle span expected do
    let target ← expr callee none
    let overloads := match target with
      | .method _ overloads => overloads.map Overload.signature
      | .value _ signatures => signatures
    recordCall { callee := callee.span, parens, name := callee.calleeName, overloads }
    match target with
    | .method name overloads =>
      let ts ← exprs args none
      return .value (← callMethod name overloads ts parens)
    | .value t _ =>
      match args.head?, args.length with
      | none, _ => return .value (← applyType t .unit callee.span parens)
      | some arg, 1 =>
        return .value
          (← apply t callee.span (fun e => return (← exprs args e).headD .error) arg.span none)
      | some _, _ =>
        let ts ← exprs args none
        return .value (← applyType t (.tuple ts) callee.span parens)
  | .app span function arg, expected => settle span expected do
    match ← formatApplication? function arg with
    | some t => return .value t
    | none =>
      match ← expr function none with
      | .method name overloads =>
        let ts ← methodArgs arg (valueOf arg (expr arg none))
        return .value (← callMethod name overloads ts arg.span)
      | .value t _ =>
        return .value (← apply t function.span (fun e => valueOf arg (expr arg e)) arg.span expected)
  | .neg span operand, expected => settle span expected do
    let t ← valueOf operand (expr operand none)
    return .value (← arithmetic .sub t span)
  | .binary span op opSpan lhs rhs, expected => settle span expected do
    match op with
    | .pipe =>
      let arg ← valueOf lhs (expr lhs none)
      if rhs.isName then
        match ← expr rhs none with
        | .method name overloads => return .value (← callMethod name overloads [arg] rhs.span)
        | .value t _ => return .value (← applyType t arg rhs.span lhs.span)
      else
        let ret ← fresh
        let _ ← expr rhs (some (.function arg ret))
        return .value ret
    | .or | .and =>
      let _ ← expr lhs (some .bool)
      let _ ← expr rhs (some .bool)
      return .value .bool
    | .concat =>
      let _ ← expr lhs (some .string)
      let _ ← expr rhs (some .string)
      return .value .string
    | op =>
      let t ← valueOf lhs (expr lhs none)
      let _ ← expr rhs (some t)
      if op.isComparison then return .value .bool
      else return .value (← arithmetic op t opSpan)
  | .conditional span condition thenBranch elseBranch, expected => settle span expected do
    let _ ← expr condition (some .bool)
    match elseBranch with
    | some elseBranch =>
      let t ← match expected with
        | some t => pure t
        | none => fresh
      let _ ← expr thenBranch (some t)
      let _ ← expr elseBranch (some t)
      return .value t
    | none =>
      let _ ← expr thenBranch (some .unit)
      return .value .unit
  | .lambda span params body, expected => settle span expected <| withScope do
    let expected ← match expected with
      | some t => some <$> shallow t
      | none => pure none
    let (ts, result?) ← bindParams body.span params expected
    let ret ← match result? with
      | some t => pure t
      | none => fresh
    let _ ← expr body (some ret)
    return .value (.curried ts ret)
  | .letIn span head value body, expected => settle span expected <| withScope do
    let bound ←
      checkBinding head value (fun e => valueOf value (expr value e)) body.span.stop false
    let t ← valueOf body (expr body expected)
    warnUnused bound
    return .value t
  | .sequential _ first second, expected => do
    let t ← valueOf first (expr first none)
    warnIgnored t first.span
    return .value (← valueOf second (expr second expected))
  | .tuple span items, expected => settle span expected do
    return .value (.tuple (← exprs items none))
  | .list span items, expected => settle span expected do
    let element ← fresh
    let _ ← exprs items (some element)
    return .value (.list element)
  | .record span fields, expected => settle span expected do
    let record ← recordOf? span fields
    exprFields record fields
    return .value (record.elim .error fun r => .ofEntityPath r.path)
  | .paren _ inner, expected => expr inner expected
  | .typed span inner written, expected => settle span expected do
    let t ← annotation written
    let _ ← expr inner (some t)
    return .value t
  | .error span, expected => settle span expected (return .value .error)

/-- The types of expressions, of which each is checked against the same expected type. -/
def exprs : List Expr → Option Ty → Checker (List Ty)
  | [], _ => return []
  | e :: es, expected => do
    let t ← valueOf e (expr e expected)
    let ts ← exprs es expected
    return t :: ts

def exprFields (record : Option Entity) : List (Ident × Expr) → Checker Unit
  | [] => return
  | (name, value) :: fields => do
    let expected ← fieldType? record name
    let _ ← valueOf value (expr value expected)
    exprFields record fields

end

end Checker
end ScriptAnalyzer

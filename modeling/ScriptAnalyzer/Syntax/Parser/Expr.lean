import ScriptAnalyzer.Numeric.Binary64
import ScriptAnalyzer.Syntax.Parser.Types
import ScriptAnalyzer.Token.Literal

/-!
Expressions, bindings and blocks. As in the parser of types, a number bounds the depth of the
recursion.
-/

namespace ScriptAnalyzer
namespace Parser

/-- An infix operator with its binding powers to the left and to the right. A higher power binds more
tightly; the operator that concatenates strings associates to the right. -/
def infixOperator? : Token → Option (BinaryOp × Nat × Nat)
  | .operator .pipeRight => some (.pipe, 1, 2)
  | .operator .orOr => some (.or, 3, 4)
  | .operator .andAnd => some (.and, 5, 6)
  | .operator .eq => some (.eq, 7, 8)
  | .operator .notEq => some (.notEq, 7, 8)
  | .operator .lt => some (.lt, 7, 8)
  | .operator .ltEq => some (.ltEq, 7, 8)
  | .operator .gt => some (.gt, 7, 8)
  | .operator .gtEq => some (.gtEq, 7, 8)
  | .operator .caret => some (.concat, 10, 9)
  | .operator .plus => some (.add, 11, 12)
  | .operator .minus => some (.sub, 11, 12)
  | .operator .star => some (.mul, 13, 14)
  | .operator .slash => some (.div, 13, 14)
  | .operator .percent => some (.rem, 13, 14)
  | _ => none

/-- Keywords that start an expression which extends as far as possible. -/
def startsOpenExpr : Token → Bool
  | .keyword .ifKw | .keyword .funKw | .keyword .letKw => true
  | _ => false

def errorHere : Parser Expr := return .error (.empty (← get).prevEnd)

/-- Reports that an expression is missing behind the last token. -/
def missingExpr : Parser Expr := do
  let place := Span.empty (← get).prevEnd
  error .expectedExpression place
  return .error place

/-- What stands behind a token that is required. Without the token the expression is an error. -/
def behind (token : Token) (what : String) (p : Parser Expr) : Parser Expr := do
  match ← expect token what with
  | some _ => p
  | none => errorHere

def maxInt : Nat := 1 <<< 63 - 1

/-- The value of a token that is a literal. An integer out of range is reported and counts as zero. -/
def literal? (t : LaidToken) : Parser (Option Literal) := do
  match t.token with
  | .int text =>
    let value := Binary64.digitsValue text.toList
    if value ≤ maxInt then return some (.int value)
    else
      error (.invalidNumber text) t.span
      return some (.int 0)
  | .float text => return some (.float (Binary64.ofNumeral text.toList))
  | .string raw | .unclosedString raw =>
    return some (.string (String.ofList (Literal.unquote raw.toList)))
  | .char raw => return some (.char ((Literal.unquote raw.toList).headD '\x00'))
  | .keyword .trueKw => return some (.bool true)
  | .keyword .falseKw => return some (.bool false)
  | _ => return none

/-- Whether the next token starts a statement of a block at `column`. -/
def atStatement (column : Nat) : Parser Bool := do
  let s ← get
  let closes : Bool := match s.peek with
    | .punct .rparen | .punct .rbracket | .punct .rbrace => true
    | _ => false
  return !s.atEnd && s.current.lineStart && s.current.column == column && !closes

/-- The elements of a bracketed sequence up to its closing bracket, and where the sequence ends. The
elements stand one per line or between semicolons. -/
def sequenceItems {α : Type} (close : Punct) (unclosed : SyntaxError) (item : Parser (Option α)) :
    Nat → Parser (List α × Nat)
  | 0 => return ([], (← get).prevEnd)
  | n + 1 => do
    match ← eat (.punct close) with
    | some span => return ([], span.stop)
    | none =>
      let s ← get
      if s.beforeColumn s.offside then
        report unclosed
        return ([], s.prevEnd)
      match ← eat (.punct .semicolon) with
      | some _ => sequenceItems close unclosed item n
      | none =>
        setAnchor
        let found ← item
        ifStuck s.rest.length reject
        let (items, stop) ← sequenceItems close unclosed item n
        return (found.toList ++ items, stop)

/-- A bracketed sequence; the next token is its opening bracket. The elements may start at the column
of the first one. -/
def bracketed {α : Type} (close : Punct) (delimiter : Char) (item : Parser (Option α)) (n : Nat) :
    Parser (List α × Nat) := do
  let opener ← bump
  let s ← get
  let unclosed : SyntaxError :=
    { cause := .unclosedDelimiter delimiter, span := opener.span
      hint := some ("close with '" ++ close.text ++ "'") }
  nested (withOffside (max s.offside s.current.column) (sequenceItems close unclosed item n))

/-- The pattern that a binding binds; `p` reads it. -/
def bindingPattern (p : Parser Pattern) : Parser Pattern := do
  match (← get).peek with
  | .ident _ | .punct .lparen => p
  | _ =>
    missing "an identifier or pattern"
    return .error (.empty (← get).prevEnd)

/-- The statements behind a binding in a block, which `p` reads. A block does not end with a binding. -/
def blockRest (column : Nat) (b : Binding) (p : Parser Expr) : Parser Expr := do
  if ← atStatement column then p
  else
    report
      { cause := .incompleteLet
        span := (b.name?.map (·.span)).getD b.pattern.span
        hint := some "a block must end with an expression" }
    errorHere

def thenPart (p : Parser Expr) : Parser Expr := do
  let s ← get
  if s.beforeColumn s.offside then
    missing "'then'"
    errorHere
  else behind (.keyword .thenKw) "'then'" p

/-- The branch behind `else`, if there is one; `p` reads it. -/
def elsePart (p : Parser Expr) : Parser (Option Expr) := do
  let s ← get
  if s.peek = .keyword .elseKw && !s.beforeColumn s.offside then
    skip
    return some (← p)
  else return none

/-- The operand on the right of an infix operator: `openExpr` reads one that extends as far as possible,
and `closed` any other. -/
def rightOperand (openExpr closed : Parser Expr) : Parser Expr := do
  if startsOpenExpr (← get).peek then openExpr else closed

/-- The name behind the dot of a member access. -/
def memberName? : Parser (Option Ident) := do
  if (← get).isOffside then return none else ident?

/-- The span of a call's parentheses; without the closing one it ends at the last token. -/
def parentheses (opener : Span) : Option Span → Parser Span
  | some close => return opener.merge close
  | none => do
    report
      { cause := .unclosedDelimiter '(', span := opener
        hint := some "close the argument list with ')'" }
    return ⟨opener.start, (← get).prevEnd⟩

mutual

/-- A binding up to the end of its right-hand side; the next token is `let`. -/
def binding : Nat → Parser Binding
  | 0 => do
    let place := Span.empty (← get).prevEnd
    return { isRec := false, pattern := .wildcard place, params := [], returnType := none
             body := .literal place .unit, span := place }
  | n + 1 => do
    let letToken ← bump
    let recToken ← eat (.keyword .recKw)
    let pattern ← bindingPattern (atomicPattern n)
    let parameters ← params n
    when (!parameters.isEmpty && !pattern.isNamed) (error .invalidPattern pattern.span)
    let returnType ← behind? (.punct .colon) (type n)
    let value ← behind (.operator .eq) "'='" (body n)
    return { isRec := recToken.isSome, pattern, params := parameters, returnType, body := value
             span := ⟨letToken.span.start, (← get).prevEnd⟩ }

/-- The scope of a binding; the next token is `in`. -/
def letScope : Nat → Binding → Parser Expr
  | 0, b => return .letIn b.span b.toLetHead b.body (.error (.empty b.span.stop))
  | n + 1, b => do
    skip
    let scope ← body n
    return .letIn (b.span.merge scope.span) b.toLetHead b.body scope

/-- What stands behind `=`, `->`, `then` or `else`: an expression on the same line, or a block that
starts on the next one. -/
def body : Nat → Parser Expr
  | 0 => missingExpr
  | n + 1 => do
    let s ← get
    if s.atEnd || (s.current.lineStart && s.current.column ≤ s.offside) then missingExpr
    else if s.current.lineStart then
      withOffside s.current.column (statements n s.current.column)
    else expr n

/-- The statements of a block at `column`. A `let` scopes over the statements behind it. -/
def statements : Nat → Nat → Parser Expr
  | 0, _ => missingExpr
  | n + 1, column => do
    if (← get).peek = .keyword .letKw then
      let b ← binding n
      if (← get).peek = .keyword .inKw then letScope n b
      else
        skipStray
        let scope ← blockRest column b (statements n column)
        return .letIn (b.span.merge scope.span) b.toLetHead b.body scope
    else
      let before := (← get).rest.length
      setAnchor
      let first ← expr n
      ifStuck before skip
      skipStray
      if ← atStatement column then
        let second ← statements n column
        return .sequential (first.span.merge second.span) first second
      else return first

def expr : Nat → Parser Expr
  | 0 => missingExpr
  | n + 1 => do
    let first ← simpleExpr n
    let more ← tupleItems n
    match more.getLast? with
    | some last => return .tuple (first.span.merge last.span) (first :: more)
    | none => return first

/-- The further items of a tuple, each behind a comma. -/
def tupleItems : Nat → Parser (List Expr)
  | 0 => return []
  | n + 1 => do
    let s ← get
    if s.peek = .punct .comma && !s.isOffside then
      skip
      let item ← simpleExpr n
      let more ← tupleItems n
      return item :: more
    else return []

def simpleExpr : Nat → Parser Expr
  | 0 => missingExpr
  | n + 1 => do
    match (← get).peek with
    | .keyword .letKw =>
      let b ← binding n
      if (← get).peek = .keyword .inKw then letScope n b
      else
        error .incompleteLet b.pattern.span
        return .letIn b.span b.toLetHead b.body (.error (.empty b.span.stop))
    | .keyword .ifKw => conditional n
    | .keyword .funKw => lambda n
    | _ => operand n 0

def conditional : Nat → Parser Expr
  | 0 => missingExpr
  | n + 1 => do
    let ifToken ← bump
    let condition ← expr n
    let thenBranch ← thenPart (body n)
    let elseBranch ← elsePart (body n)
    return .conditional ⟨ifToken.span.start, (← get).prevEnd⟩ condition thenBranch elseBranch

def lambda : Nat → Parser Expr
  | 0 => missingExpr
  | n + 1 => do
    let funToken ← bump
    let parameters ← params n
    when parameters.isEmpty (missing "a parameter")
    let value ← behind (.operator .arrow) "'->'" (body n)
    return .lambda ⟨funToken.span.start, (← get).prevEnd⟩ parameters value

/-- An operand with the infix operators behind it whose left binding power is at least `power`. -/
def operand : Nat → Nat → Parser Expr
  | 0, _ => missingExpr
  | n + 1, power => do
    let lhs ← unary n
    operations n power lhs

def operations : Nat → Nat → Expr → Parser Expr
  | 0, _, lhs => return lhs
  | n + 1, power, lhs => do
    let s ← get
    match infixOperator? s.peek with
    | none => return lhs
    | some (op, left, right) =>
      if left < power || s.isOffside then return lhs
      let opToken ← bump
      let rhs ← rightOperand (simpleExpr n) (operand n right)
      let span := (lhs.span.merge rhs.span).merge opToken.span
      operations n power (.binary span op opToken.span lhs rhs)

def unary : Nat → Parser Expr
  | 0 => missingExpr
  | n + 1 => do
    let s ← get
    if s.peek = .operator .minus && !s.isOffside then
      let minus ← bump
      let inner ← unary n
      return .neg (minus.span.merge inner.span) inner
    else
      let function ← accessed n
      arguments n function

def arguments : Nat → Expr → Parser Expr
  | 0, function => return function
  | n + 1, function => do
    let s ← get
    if s.peek.startsAtom && !s.isOffside then
      let argument ← accessed n
      arguments n (.app (function.span.merge argument.span) function argument)
    else return function

/-- An atom with member accesses and calls behind it. -/
def accessed : Nat → Parser Expr
  | 0 => missingExpr
  | n + 1 => do
    let target ← atom n
    accesses n target

/-- The member accesses and calls behind `target`. A call's parenthesis stands right behind it. -/
def accesses : Nat → Expr → Parser Expr
  | 0, target => return target
  | n + 1, target => do
    let s ← get
    match s.peek with
    | .punct .dot =>
      if s.isOffside then return target
      let dot ← bump
      let name ← memberName?
      match name with
      | some name =>
        accesses n (.member (target.span.merge name.span) target dot.span (some name))
      | none =>
        report { cause := .expectedMemberName, span := dot.span
                 context := some "after member access" }
        accesses n (.member (target.span.merge dot.span) target dot.span none)
    | .punct .lparen =>
      if s.current.lineStart || s.current.span.start ≠ target.span.stop then return target
      let opener ← bump
      let (args, close) ← nested (callArguments n)
      let parens ← parentheses opener.span close
      accesses n (.call (target.span.merge parens) target args parens)
    | _ => return target

/-- The arguments of a call and its closing parenthesis, if it is there. -/
def callArguments : Nat → Parser (List Expr × Option Span)
  | 0 => return ([], none)
  | n + 1 => do
    match ← eat (.punct .rparen) with
    | some close => return ([], some close)
    | none =>
      let s ← get
      if s.isOffside then return ([], none)
      let arg ← simpleExpr n
      match ← eat (.punct .comma) with
      | some _ =>
        let (args, close) ← callArguments n
        return (arg :: args, close)
      | none =>
        let s' ← get
        if s'.rest.length = s.rest.length || s'.peek ≠ .punct .rparen then return ([arg], none)
        let (args, close) ← callArguments n
        return (arg :: args, close)

def atom : Nat → Parser Expr
  | 0 => missingExpr
  | n + 1 => do
    let s ← get
    if s.isOffside then missingExpr
    else
      let t := s.current
      match t.token with
      | .ident text =>
        skip
        return .ident ⟨text, t.span⟩
      | .punct .lparen => parenthesised n
      | .punct .lbracket =>
        let (items, stop) ← bracketed .rbracket '[' (some <$> expr n) n
        return .list ⟨t.span.start, stop⟩ items
      | .punct .lbrace =>
        let (fields, stop) ← bracketed .rbrace '\x7b' (recordField n) n
        return .record ⟨t.span.start, stop⟩ fields
      | .keyword .ifKw | .keyword .funKw | .keyword .letKw => simpleExpr n
      | _ =>
        match ← literal? t with
        | some value =>
          skip
          return .literal t.span value
        | none =>
          error .expectedExpression t.span
          return .error (.empty t.span.start)

/-- The unit, or an expression in parentheses, with or without a type. -/
def parenthesised : Nat → Parser Expr
  | 0 => missingExpr
  | n + 1 => do
    let opener ← bump
    match ← eat (.punct .rparen) with
    | some close => return .literal (opener.span.merge close) .unit
    | none =>
      let inner ← nested (annotated n)
      let stop ← closing .rparen
        { cause := .unclosedDelimiter '(', span := opener.span, hint := some "add a matching ')'" }
      return .paren ⟨opener.span.start, stop⟩ inner

/-- An expression with an optional type behind it. -/
def annotated : Nat → Parser Expr
  | 0 => missingExpr
  | n + 1 => do
    let inner ← expr n
    let s ← get
    if s.peek = .punct .colon && !s.isOffside then
      skip
      let annotation ← type n
      return .typed (inner.span.merge annotation.span) inner annotation
    else return inner

/-- A field of a record; without a name there is none. -/
def recordField : Nat → Parser (Option (Ident × Expr))
  | 0 => return none
  | n + 1 => do
    match ← ident? with
    | none => return none
    | some name =>
      let value ← behind (.operator .eq) "'='" (expr n)
      return some (name, value)

end

end Parser
end ScriptAnalyzer

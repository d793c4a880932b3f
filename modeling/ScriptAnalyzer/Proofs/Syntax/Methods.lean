import ScriptAnalyzer.Proofs.Syntax.ExpressionPlaces
import ScriptAnalyzer.Proofs.Syntax.Expressions

/-!
The methods of the parser as equations. One round of a method does what the method does by itself and
asks an oracle for the methods that it calls; a loop asks for itself to go round once more. The
elementary steps, which ask for nothing but a loop of their own, stand in the rounds as they are.

What a round comes to depends on the answers to methods in front of fewer tokens, and to methods of a
lower rank in front of the same ones.
-/

namespace ScriptAnalyzer

/-- A method or a loop of the parser, with the types of its argument and its result. -/
inductive Method : Type → Type → Type
  | bump : Method Unit LaidToken
  | eat : Method Token (Option Span)
  | report : Method SyntaxError Unit
  | unexpected : Method Unit Unit
  | missing : Method String Unit
  | expect : Method (Token × String) (Option Span)
  | ident : Method Unit (Option Ident)
  /-- The loop over the segments of a dotted name behind its first one. -/
  | segments : Method Unit (List Ident)
  | longIdent : Method Unit (Option LongIdent)
  /-- The loop that skips tokens with a property. -/
  | skipWhile : Method (LaidToken → Bool) Unit
  | synchronize : Method Nat Unit
  | skipStray : Method Unit Unit
  /-- The loop that looks for the end of a name, from a place in front of which all tokens belong to it.
  It reads nothing. -/
  | nameEnd : Method Nat Nat
  | header : Method Unit (Option LongIdent)
  | typeSuffixes : Method TypeExpr TypeExpr
  | atomicType : Method Unit TypeExpr
  | suffixedType : Method Unit TypeExpr
  | tupleTypeItems : Method Unit (List TypeExpr)
  | tupleType : Method Unit TypeExpr
  | type : Method Unit TypeExpr
  | atomicPattern : Method Unit Pattern
  | annotatedPattern : Method Unit Pattern
  | tuplePatternItems : Method Pattern (List Pattern)
  | tuplePattern : Method Unit Pattern
  | params : Method Unit (List Pattern)
  | binding : Method Unit Binding
  | letScope : Method Binding Expr
  | body : Method Unit Expr
  | statements : Method Nat Expr
  | expr : Method Unit Expr
  | tupleItems : Method Unit (List Expr)
  | simpleExpr : Method Unit Expr
  | conditional : Method Unit Expr
  | lambda : Method Unit Expr
  | operand : Method Nat Expr
  | operations : Method (Nat × Expr) Expr
  | unary : Method Unit Expr
  | arguments : Method Expr Expr
  | accessed : Method Unit Expr
  | accesses : Method Expr Expr
  | callArguments : Method Unit (List Expr × Option Span)
  | atom : Method Unit Expr
  | parenthesised : Method Unit Expr
  | annotated : Method Unit Expr
  | listItems : Method SyntaxError (List Expr × Nat)
  | list : Method Unit (List Expr × Nat)
  | recordField : Method Unit (Option (Ident × Expr))
  | recordItems : Method SyntaxError (List (Ident × Expr) × Nat)
  | record : Method Unit (List (Ident × Expr) × Nat)
  | fieldDecls : Method SyntaxError (List (Ident × TypeExpr))
  | typeDecl : Method Unit (Span → Decl)
  | directiveArgs : Method SyntaxError.Cause (List Ident)
  | directive : Method String Directive
  | decls : Method Nat (List Decl)
  | decl : Method Nat Decl
  | moduleDecl : Method Nat (Span → Decl)
  | file : Method Unit (Option LongIdent × List Decl)

/-- What answers the methods that a round asks for. -/
abbrev Oracle : Type 1 := ⦃α β : Type⦄ → Method α β → α → Parser β

namespace Parser

def readSegments : Parser (List Ident) := do
  let names := segments (← get).rest
  modify fun s => { s with
    rest := s.rest.drop (2 * names.length)
    prevEnd := (names.getLast?.map (·.span.stop)).getD s.prevEnd }
  return names

def partOfName (token : Token) : Bool := token.isIdent || token == .punct .dot

/-- The number of tokens in front of the end of a name whose first `n` tokens are known. -/
def readNameEnd (n : Nat) : Parser Nat :=
  return n + (((← get).rest.drop n).takeWhile fun t => partOfName t.token).length

/-- One round of the loop over the elements of a bracketed sequence: `item` reads an element and `more`
goes round again. -/
def itemsRound {α : Type} (close : Punct) (unclosed : SyntaxError) (item : Parser (Option α))
    (more : Parser (List α × Nat)) : Parser (List α × Nat) := do
  match ← eat (.punct close) with
  | some span => return ([], span.stop)
  | none =>
    let s ← get
    if s.beforeColumn s.offside then
      report unclosed
      return ([], s.prevEnd)
    match ← eat (.punct .semicolon) with
    | some _ => more
    | none =>
      setAnchor
      let found ← item
      ifStuck s.rest.length reject
      let (items, stop) ← more
      return (found.toList ++ items, stop)

/-- A bracketed sequence whose elements `items` reads. -/
def bracketRound {α : Type} (close : Punct) (delimiter : Char)
    (items : SyntaxError → Parser (List α × Nat)) : Parser (List α × Nat) := do
  let opener ← bump
  let s ← get
  let unclosed : SyntaxError :=
    { cause := .unclosedDelimiter delimiter, span := opener.span
      hint := some ("close with '" ++ close.text ++ "'") }
  nested (withOffside (max s.offside s.current.column) (items unclosed))

/-- The method with `n` as the bound on the depth of its recursion. -/
def bounded (n : Nat) : Oracle
  | _, _, .bump, _ => bump
  | _, _, .eat, token => eat token
  | _, _, .report, e => report e
  | _, _, .unexpected, _ => unexpected
  | _, _, .missing, what => missing what
  | _, _, .expect, r => expect r.1 r.2
  | _, _, .ident, _ => ident?
  | _, _, .segments, _ => readSegments
  | _, _, .longIdent, _ => longIdent?
  | _, _, .skipWhile, p => skipWhile p
  | _, _, .synchronize, column => synchronize column
  | _, _, .skipStray, _ => skipStray
  | _, _, .nameEnd, k => readNameEnd k
  | _, _, .header, _ => header
  | _, _, .typeSuffixes, t => typeSuffixes n t
  | _, _, .atomicType, _ => atomicType n
  | _, _, .suffixedType, _ => suffixedType n
  | _, _, .tupleTypeItems, _ => tupleTypeItems n
  | _, _, .tupleType, _ => tupleType n
  | _, _, .type, _ => type n
  | _, _, .atomicPattern, _ => atomicPattern n
  | _, _, .annotatedPattern, _ => annotatedPattern n
  | _, _, .tuplePatternItems, p => tuplePatternItems n p
  | _, _, .tuplePattern, _ => tuplePattern n
  | _, _, .params, _ => params n
  | _, _, .binding, _ => binding n
  | _, _, .letScope, b => letScope n b
  | _, _, .body, _ => body n
  | _, _, .statements, column => statements n column
  | _, _, .expr, _ => expr n
  | _, _, .tupleItems, _ => tupleItems n
  | _, _, .simpleExpr, _ => simpleExpr n
  | _, _, .conditional, _ => conditional n
  | _, _, .lambda, _ => lambda n
  | _, _, .operand, power => operand n power
  | _, _, .operations, r => operations n r.1 r.2
  | _, _, .unary, _ => unary n
  | _, _, .arguments, e => arguments n e
  | _, _, .accessed, _ => accessed n
  | _, _, .accesses, e => accesses n e
  | _, _, .callArguments, _ => callArguments n
  | _, _, .atom, _ => atom n
  | _, _, .parenthesised, _ => parenthesised n
  | _, _, .annotated, _ => annotated n
  | _, _, .listItems, unclosed => sequenceItems .rbracket unclosed (some <$> expr n) n
  | _, _, .list, _ => bracketed .rbracket '[' (some <$> expr n) n
  | _, _, .recordField, _ => recordField n
  | _, _, .recordItems, unclosed => sequenceItems .rbrace unclosed (recordField n) n
  | _, _, .record, _ => bracketed .rbrace '\x7b' (recordField n) n
  | _, _, .fieldDecls, unclosed => fieldDecls unclosed n
  | _, _, .typeDecl, _ => typeDecl n
  | _, _, .directiveArgs, invalid => directiveArgs invalid n
  | _, _, .directive, raw => directive raw n
  | _, _, .decls, column => decls n column
  | _, _, .decl, column => decl n column
  | _, _, .moduleDecl, column => moduleDecl n column
  | _, _, .file, _ => file n

/-- One round of a method, with `M` for the methods it asks for. -/
def round (M : Oracle) : Oracle
  | _, _, .bump, _ => bump
  | _, _, .eat, token => eat token
  | _, _, .report, e => report e
  | _, _, .unexpected, _ => unexpected
  | _, _, .missing, what => missing what
  | _, _, .expect, r => expect r.1 r.2
  | _, _, .ident, _ => ident?
  | _, _, .segments, _ => do
    let s ← get
    match s.peek, s.ahead 1 with
    | .punct .dot, .ident text =>
      skip
      let t ← bump
      let names ← M .segments ()
      return ⟨text, t.span⟩ :: names
    | _, _ => return []
  | _, _, .longIdent, _ => do
    match ← ident? with
    | none => return none
    | some first =>
      let names ← M .segments ()
      return some ⟨first, names⟩
  | _, _, .skipWhile, p => do
    let s ← get
    if s.atEnd || !p s.current then return ()
    else
      skip
      M .skipWhile p
  | _, _, .synchronize, column => M .skipWhile fun t => !(t.lineStart && t.column ≤ column)
  | _, _, .skipStray, _ => do
    let s ← get
    if s.atEnd || s.current.lineStart || belongsOutside s then return
    error (.unexpectedToken s.peek.text) s.current.span
    M .skipWhile fun t => !t.lineStart
  | _, _, .nameEnd, k => do
    if partOfName ((← get).ahead k) then M .nameEnd (k + 1) else return k
  | _, _, .header, _ => do
    let s ← get
    if s.peek ≠ .keyword .moduleKw then return none
    let k ← M .nameEnd 1
    if s.ahead k = .operator .eq then return none
    skip
    match ← longIdent? with
    | some name => return some name
    | none =>
      unexpected
      return none
  | _, _, .typeSuffixes, t => do
    let s ← get
    if s.current.lineStart then return t
    match s.peek with
    | .ident _ =>
      match ← longIdent? with
      | some ctor => M .typeSuffixes (.app (t.span.merge ctor.span) t ctor)
      | none => return t
    | .punct .lbracket =>
      if s.ahead 1 = .punct .rbracket then
        skip
        let close ← bump
        M .typeSuffixes (.array (t.span.merge close.span) t)
      else return t
    | _ => return t
  | _, _, .atomicType, _ => do
    let s ← get
    if s.isOffside then missingType
    else match s.peek with
    | .ident _ =>
      match ← longIdent? with
      | some name => return .named name.span name
      | none => missingType
    | .typeVar text =>
      let t ← bump
      return .var t.span ⟨text, t.span⟩
    | .punct .lparen =>
      let opener ← bump
      let inner ← nested (M .type ())
      let stop ← closing .rparen { cause := .unclosedDelimiter '(', span := opener.span }
      return inner.withSpan ⟨opener.span.start, stop⟩
    | _ => missingType
  | _, _, .suffixedType, _ => do
    let atom ← M .atomicType ()
    M .typeSuffixes atom
  | _, _, .tupleTypeItems, _ => do
    let s ← get
    if s.peek = .operator .star && !s.isOffside then
      skip
      let item ← M .suffixedType ()
      let more ← M .tupleTypeItems ()
      return item :: more
    else return []
  | _, _, .tupleType, _ => do
    let first ← M .suffixedType ()
    let more ← M .tupleTypeItems ()
    match more.getLast? with
    | some last => return .tuple (first.span.merge last.span) (first :: more)
    | none => return first
  | _, _, .type, _ => do
    let lhs ← M .tupleType ()
    let s ← get
    if s.peek = .operator .arrow && !s.isOffside then
      skip
      let rhs ← M .type ()
      return .function (lhs.span.merge rhs.span) lhs rhs
    else return lhs
  | _, _, .atomicPattern, _ => do
    let t := (← get).current
    match t.token with
    | .ident text =>
      skip
      return if text = "_" then .wildcard t.span else .named t.span ⟨text, t.span⟩
    | .punct .lparen =>
      skip
      match ← eat (.punct .rparen) with
      | some close => return .unit (t.span.merge close)
      | none =>
        let inner ← nested (M .tuplePattern ())
        let stop ← closing .rparen { cause := .unclosedDelimiter '(', span := t.span }
        return inner.withSpan ⟨t.span.start, stop⟩
    | _ => invalidPattern
  | _, _, .annotatedPattern, _ => do
    let pattern ← M .atomicPattern ()
    match ← eat (.punct .colon) with
    | none => return pattern
    | some _ =>
      let annotation ← M .type ()
      return .typed (pattern.span.merge annotation.span) pattern annotation
  | _, _, .tuplePatternItems, item => do
    if item.isError then return []
    match ← eat (.punct .comma) with
    | none => return []
    | some _ =>
      let item ← M .annotatedPattern ()
      let more ← M .tuplePatternItems item
      return item :: more
  | _, _, .tuplePattern, _ => do
    let first ← M .annotatedPattern ()
    let more ← M .tuplePatternItems first
    match more.getLast? with
    | some last => return .tuple (first.span.merge last.span) (first :: more)
    | none => return first
  | _, _, .params, _ => do
    let s ← get
    match s.peek with
    | .ident _ | .punct .lparen =>
      if s.isOffside then return []
      let p ← M .atomicPattern ()
      let ps ← M .params ()
      return p :: ps
    | _ => return []
  | _, _, .binding, _ => do
    let letToken ← bump
    let recToken ← eat (.keyword .recKw)
    let pattern ← bindingPattern (M .atomicPattern ())
    let parameters ← M .params ()
    when (!parameters.isEmpty && !pattern.isNamed) (error .invalidPattern pattern.span)
    let returnType ← behind? (.punct .colon) (M .type ())
    let value ← behind (.operator .eq) "'='" (M .body ())
    return { isRec := recToken.isSome, pattern, params := parameters, returnType, body := value
             span := ⟨letToken.span.start, (← get).prevEnd⟩ }
  | _, _, .letScope, b => do
    skip
    let scope ← M .body ()
    return .letIn (b.span.merge scope.span) b.toLetHead b.body scope
  | _, _, .body, _ => do
    let s ← get
    if s.atEnd || (s.current.lineStart && s.current.column ≤ s.offside) then missingExpr
    else if s.current.lineStart then
      withOffside s.current.column (M .statements s.current.column)
    else M .expr ()
  | _, _, .statements, column => do
    if (← get).peek = .keyword .letKw then
      let b ← M .binding ()
      if (← get).peek = .keyword .inKw then M .letScope b
      else
        skipStray
        let scope ← blockRest column b (M .statements column)
        return .letIn (b.span.merge scope.span) b.toLetHead b.body scope
    else
      let before := (← get).rest.length
      setAnchor
      let first ← M .expr ()
      ifStuck before skip
      skipStray
      if ← atStatement column then
        let second ← M .statements column
        return .sequential (first.span.merge second.span) first second
      else return first
  | _, _, .expr, _ => do
    let first ← M .simpleExpr ()
    let more ← M .tupleItems ()
    match more.getLast? with
    | some last => return .tuple (first.span.merge last.span) (first :: more)
    | none => return first
  | _, _, .tupleItems, _ => do
    let s ← get
    if s.peek = .punct .comma && !s.isOffside then
      skip
      let item ← M .simpleExpr ()
      let more ← M .tupleItems ()
      return item :: more
    else return []
  | _, _, .simpleExpr, _ => do
    match (← get).peek with
    | .keyword .letKw =>
      let b ← M .binding ()
      if (← get).peek = .keyword .inKw then M .letScope b
      else
        error .incompleteLet b.pattern.span
        return .letIn b.span b.toLetHead b.body (.error (.empty b.span.stop))
    | .keyword .ifKw => M .conditional ()
    | .keyword .funKw => M .lambda ()
    | _ => M .operand 0
  | _, _, .conditional, _ => do
    let ifToken ← bump
    let condition ← M .expr ()
    let thenBranch ← thenPart (M .body ())
    let elseBranch ← elsePart (M .body ())
    return .conditional ⟨ifToken.span.start, (← get).prevEnd⟩ condition thenBranch elseBranch
  | _, _, .lambda, _ => do
    let funToken ← bump
    let parameters ← M .params ()
    when parameters.isEmpty (missing "a parameter")
    let value ← behind (.operator .arrow) "'->'" (M .body ())
    return .lambda ⟨funToken.span.start, (← get).prevEnd⟩ parameters value
  | _, _, .operand, power => do
    let lhs ← M .unary ()
    M .operations (power, lhs)
  | _, _, .operations, (power, lhs) => do
    let s ← get
    match infixOperator? s.peek with
    | none => return lhs
    | some (op, left, right) =>
      if left < power || s.isOffside then return lhs
      let opToken ← bump
      let rhs ← rightOperand (M .simpleExpr ()) (M .operand right)
      let span := (lhs.span.merge rhs.span).merge opToken.span
      M .operations (power, .binary span op opToken.span lhs rhs)
  | _, _, .unary, _ => do
    let s ← get
    if s.peek = .operator .minus && !s.isOffside then
      let minus ← bump
      let inner ← M .unary ()
      return .neg (minus.span.merge inner.span) inner
    else
      let function ← M .accessed ()
      M .arguments function
  | _, _, .arguments, function => do
    let s ← get
    if s.peek.startsAtom && !s.isOffside then
      let argument ← M .accessed ()
      M .arguments (.app (function.span.merge argument.span) function argument)
    else return function
  | _, _, .accessed, _ => do
    let target ← M .atom ()
    M .accesses target
  | _, _, .accesses, target => do
    let s ← get
    match s.peek with
    | .punct .dot =>
      if s.isOffside then return target
      let dot ← bump
      let name ← memberName?
      match name with
      | some name => M .accesses (.member (target.span.merge name.span) target dot.span (some name))
      | none =>
        report { cause := .expectedMemberName, span := dot.span
                 context := some "after member access" }
        M .accesses (.member (target.span.merge dot.span) target dot.span none)
    | .punct .lparen =>
      if s.current.lineStart || s.current.span.start ≠ target.span.stop then return target
      let opener ← bump
      let (args, close) ← nested (M .callArguments ())
      let parens ← parentheses opener.span close
      M .accesses (.call (target.span.merge parens) target args parens)
    | _ => return target
  | _, _, .callArguments, _ => do
    match ← eat (.punct .rparen) with
    | some close => return ([], some close)
    | none =>
      let s ← get
      if s.isOffside then return ([], none)
      let arg ← M .simpleExpr ()
      match ← eat (.punct .comma) with
      | some _ =>
        let (args, close) ← M .callArguments ()
        return (arg :: args, close)
      | none =>
        let s' ← get
        if s'.rest.length = s.rest.length || s'.peek ≠ .punct .rparen then return ([arg], none)
        let (args, close) ← M .callArguments ()
        return (arg :: args, close)
  | _, _, .atom, _ => do
    let s ← get
    if s.isOffside then missingExpr
    else
      let t := s.current
      match t.token with
      | .ident text =>
        skip
        return .ident ⟨text, t.span⟩
      | .punct .lparen => M .parenthesised ()
      | .punct .lbracket =>
        let (items, stop) ← M .list ()
        return .list ⟨t.span.start, stop⟩ items
      | .punct .lbrace =>
        let (fields, stop) ← M .record ()
        return .record ⟨t.span.start, stop⟩ fields
      | .keyword .ifKw | .keyword .funKw | .keyword .letKw => M .simpleExpr ()
      | _ =>
        match ← literal? t with
        | some value =>
          skip
          return .literal t.span value
        | none =>
          error .expectedExpression t.span
          return .error (.empty t.span.start)
  | _, _, .parenthesised, _ => do
    let opener ← bump
    match ← eat (.punct .rparen) with
    | some close => return .literal (opener.span.merge close) .unit
    | none =>
      let inner ← nested (M .annotated ())
      let stop ← closing .rparen
        { cause := .unclosedDelimiter '(', span := opener.span, hint := some "add a matching ')'" }
      return .paren ⟨opener.span.start, stop⟩ inner
  | _, _, .annotated, _ => do
    let inner ← M .expr ()
    let s ← get
    if s.peek = .punct .colon && !s.isOffside then
      skip
      let annotation ← M .type ()
      return .typed (inner.span.merge annotation.span) inner annotation
    else return inner
  | _, _, .listItems, unclosed =>
    itemsRound .rbracket unclosed (some <$> M .expr ()) (M .listItems unclosed)
  | _, _, .list, _ => bracketRound .rbracket '[' (M .listItems)
  | _, _, .recordField, _ => do
    match ← ident? with
    | none => return none
    | some name =>
      let value ← behind (.operator .eq) "'='" (M .expr ())
      return some (name, value)
  | _, _, .recordItems, unclosed =>
    itemsRound .rbrace unclosed (M .recordField ()) (M .recordItems unclosed)
  | _, _, .record, _ => bracketRound .rbrace '\x7b' (M .recordItems)
  | _, _, .fieldDecls, unclosed => do
    match ← eat (.punct .rbrace) with
    | some _ => return []
    | none =>
      let s ← get
      if s.beforeColumn s.offside then
        report unclosed
        return []
      match ← eat (.punct .semicolon) with
      | some _ => M .fieldDecls unclosed
      | none =>
        match ← ident? with
        | none =>
          reject
          M .fieldDecls unclosed
        | some name =>
          let _ ← expect (.punct .colon) "':'"
          let fieldType ← M .type ()
          let fields ← M .fieldDecls unclosed
          return (name, fieldType) :: fields
  | _, _, .typeDecl, _ => do
    skip
    match ← ident? with
    | none => missing "a type name"; return .error
    | some name =>
      match ← expect (.operator .eq) "'='" with
      | none => return .error
      | some _ =>
        if (← get).peek = .punct .lbrace then
          let opener ← bump
          let s ← get
          let unclosed : SyntaxError :=
            { cause := .unclosedDelimiter '\x7b', span := opener.span
              hint := some "close the record with '\x7d'" }
          let fields ← nested (withOffside (max s.offside s.current.column) (M .fieldDecls unclosed))
          return (.type · name (.record fields))
        else
          let abbreviated ← M .type ()
          return (.type · name (.abbreviation abbreviated))
  | _, _, .directiveArgs, invalid => do
    let t := (← get).current
    if t.lineStart then return []
    let arg := directiveArg? t
    when arg.isNone (error invalid t.span)
    skip
    let args ← M .directiveArgs invalid
    return arg.toList ++ args
  | _, _, .directive, raw => do
    let t ← bump
    let name : Ident := ⟨String.ofList (raw.toList.dropWhile (· == '#')), ⟨t.span.start + 1, t.span.stop⟩⟩
    let args ← M .directiveArgs (.invalidDirective ("#" ++ name.text))
    when ((← get).kind = .module && isScriptDirective name.text) <|
      report { cause := .invalidDirective raw, span := t.span
               hint := some "only allowed in script files" }
    return { name, args, span := ⟨t.span.start, (← get).prevEnd⟩ }
  | _, _, .decls, column => do
    let s ← get
    let t := s.current
    if s.beforeColumn column then return []
    if !t.lineStart || column < t.column then
      error (if t.lineStart then .offside else .unexpectedToken t.token.text) t.span
      skip
      synchronize column
      M .decls column
    else
      setAnchor
      let d ← M .decl column
      ifStuck s.rest.length reject
      when (!(← get).current.lineStart) unexpected
      synchronize column
      let ds ← M .decls column
      return d :: ds
  | _, _, .decl, column => do
    let s ← get
    let start := s.current.span.start
    let shape ← (match s.peek with
      | .keyword .letKw => do
        let b ← M .binding ()
        if (← get).peek = .keyword .inKw then
          let e ← M .letScope b
          return (Decl.expr · e)
        else return (Decl.binding · b)
      | .keyword .openKw => do
        skip
        match ← longIdent? with
        | some path => return (Decl.open · path)
        | none => missing "a namespace or module name"; return Decl.error
      | .keyword .moduleKw => M .moduleDecl column
      | .keyword .typeKw => M .typeDecl ()
      | .directive raw => do
        let d ← M .directive raw
        return (Decl.directive · d)
      | .keyword .doKw => do
        skip
        let e ← M .body ()
        return (Decl.expr · e)
      | _ => do
        let e ← M .expr ()
        skipStray
        return (Decl.expr · e) : Parser (Span → Decl))
    return shape ⟨start, max (← get).prevEnd start⟩
  | _, _, .moduleDecl, column => do
    skip
    match ← ident? with
    | none => missing "a module name"; return .error
    | some name =>
      match ← expect (.operator .eq) "'='" with
      | none => return .error
      | some _ =>
        let s ← get
        if s.atEnd || !s.current.lineStart || s.current.column ≤ column then
          error (.expected "indented declarations") (.empty s.prevEnd)
          return (.module · name [])
        else
          let inner := s.current.column
          let members ← withOffside inner (M .decls inner)
          return (.module · name members)
  | _, _, .file, _ => do
    let name ← M .header ()
    let column := (← get).current.column
    let members ← withOffside column (M .decls column)
    return (name, members)

end Parser

namespace Method

variable {α β : Type}

/-- The tokens that the method has not passed yet: those still to be read, and for the search for the
end of a name those behind the place that it has come to. -/
def left : Method α β → α → ParserState → Nat
  | nameEnd, k, s => s.rest.length - k
  | _, _, s => s.rest.length

/-- A method asks for others of a lower rank until it has read a token. Four of them open a construct
with a token that is known to be there; at the end of the file their rank is above that of the others,
as they read nothing. -/
def rank : Method α β → ParserState → Nat
  | bump, _ | eat, _ | report, _ | unexpected, _ | missing, _ | expect, _ | ident, _ => 0
  | segments, _ | skipWhile, _ | nameEnd, _ => 1
  | longIdent, _ | synchronize, _ | skipStray, _ | header, _ => 2
  | typeSuffixes, _ | atomicType, _ | tupleTypeItems, _ => 1
  | suffixedType, _ => 2
  | tupleType, _ => 3
  | type, _ => 4
  | atomicPattern, _ | tuplePatternItems, _ => 1
  | annotatedPattern, _ | params, _ => 2
  | tuplePattern, _ => 3
  | binding, _ | lambda, _ => 3
  | conditional, s | parenthesised, s | list, s | record, s => if s.atEnd then 20 else 3
  | simpleExpr, s => if Parser.startsOpenExpr s.peek then 4 else 10
  | accesses, _ | operations, _ | tupleItems, _ | recordField, _ => 1
  | recordItems, _ => 2
  | atom, _ => 5
  | accessed, _ => 6
  | arguments, _ => 7
  | unary, _ => 8
  | operand, _ => 9
  | expr, _ | callArguments, _ => 11
  | statements, _ | annotated, _ | listItems, _ => 12
  | body, _ => 13
  | letScope, _ => 14
  | fieldDecls, _ | typeDecl, _ | directiveArgs, _ | moduleDecl, _ => 1
  | directive, _ => 2
  | decl, _ => 12
  | decls, _ => 13
  | file, _ => 14

/-- A bound on the depth of the recursion that the method needs. -/
def depth (m : Method α β) (a : α) (s : ParserState) : Nat := 32 * m.left a s + m.rank s

end Method

namespace Parser

/-- The methods without a bound on their recursion. -/
def unbounded : Oracle := fun _ _ m a s => (bounded (m.depth a s) m a).run s

end Parser

namespace ParserState

variable {T : LaidToken → Prop} {s s' : ParserState}

/-- The cursor has moved on by some tokens, in the same column and nesting, with the earlier errors. -/
abbrev Follows (s s' : ParserState) : Prop := Passes (fun _ => False) s s'

theorem Passes.suffix (h : Passes T s s') : s'.rest <:+ s.rest := by
  obtain ⟨read, hr, -⟩ := h
  exact ⟨read, hr.rest.symm⟩

theorem Passes.length_le (h : Passes T s s') : s'.rest.length ≤ s.rest.length := h.suffix.length_le

theorem Passes.atEnd (h : Passes T s s') (hend : s'.atEnd = false) : s.atEnd = false := by
  cases hrest : s.rest with
  | nil =>
    have hnil : s'.rest = [] := List.suffix_nil.mp (hrest ▸ h.suffix)
    rw [ParserState.atEnd, hnil] at hend
    cases hend
  | cons t ts => rw [ParserState.atEnd, hrest]; rfl

theorem follows_advance (s : ParserState) : Follows s s.advance := passes_advance id

/-- The cursor has moved on, and by a token at least if `certain` holds. -/
structure Advances (certain : Prop) (s s' : ParserState) : Prop where
  follows : Follows s s'
  reads : certain → s'.rest.length < s.rest.length

theorem advances_of_advance {certain : Prop} (hend : certain → s.atEnd = false)
    (h : Follows s.advance s') : Advances certain s s' where
  follows := (follows_advance s).trans h
  reads hread := Nat.lt_of_le_of_lt h.length_le (length_advance (hend hread))

theorem atEnd_of_not_beforeColumn {column : Nat} (h : ¬s.beforeColumn column = true) :
    s.atEnd = false := by
  simp only [beforeColumn, Bool.or_eq_true, not_or, Bool.not_eq_true] at h
  exact h.1

theorem atEnd_of_not_lineStart (h : ¬s.current.lineStart = true) : s.atEnd = false := by
  cases hend : s.atEnd with
  | false => rfl
  | true =>
    rw [current, List.isEmpty_iff.mp hend] at h
    exact (h rfl).elim

/-- A step that reads a token unless the file ends has one less in front of it than a state before. -/
theorem lt_of_moves {s₁ s₂ : ParserState} (hs : s₁.rest <:+ s.rest) (hend : s.atEnd = false)
    (h₁ : s₂.rest.length ≤ s₁.rest.length) (h : s₁.atEnd = false → s₂.rest.length < s₁.rest.length) :
    s₂.rest.length < s.rest.length := by
  cases hend₁ : s₁.atEnd with
  | false => exact Nat.lt_of_lt_of_le (h hend₁) hs.length_le
  | true =>
    rw [List.isEmpty_iff.mp hend₁] at h₁
    exact Nat.lt_of_le_of_lt h₁ (List.length_pos_iff.mpr (by simpa [atEnd] using hend))

theorem lt_length_of_partOfName {k : Nat} (h : Parser.partOfName (s.ahead k) = true) :
    k < s.rest.length := by
  refine Nat.lt_of_not_le fun hle => ?_
  rw [ahead, List.drop_eq_nil_of_le hle] at h
  cases h

theorem atEnd_of_not_isOffside (h : ¬s.isOffside = true) : s.atEnd = false := by
  cases hend : s.atEnd with
  | false => rfl
  | true =>
    rw [isOffside, hend] at h
    exact (h rfl).elim

theorem advance_lt {token : Token} (h : s.peek = token) (htoken : token ≠ .eof) :
    s.advance.rest.length < s.rest.length :=
  length_advance (atEnd_of_peek h htoken)

end ParserState

open ParserState

theorem resuming_none : Resuming (fun _ => False) 0 := ⟨False.elim, False.elim, False.elim⟩

namespace Method

variable {α β : Type}

/-- Whether the method certainly reads a token. -/
def MustRead : Method α β → ParserState → Prop
  | binding, s | parenthesised, s | list, s | record, s => s.atEnd = false
  | atomicPattern, s => Parser.startsPattern s.peek = true
  | atom, s | accessed, s => s.peek.startsAtom = true ∧ s.isOffside = false
  | _, _ => False

theorem rank_lt (m : Method α β) (s : ParserState) : m.rank s < 32 := by
  cases m <;> simp only [rank] <;> first | omega | (split <;> omega)

theorem rank_simpleExpr_lt (s : ParserState) : (simpleExpr.rank s).blt 11 = true := by
  change (if Parser.startsOpenExpr s.peek then 4 else 10 : Nat).blt 11 = true
  split <;> rfl

theorem left_le (m : Method α β) (a : α) (s : ParserState) : m.left a s ≤ s.rest.length := by
  cases m <;> first | exact Nat.le_refl _ | exact Nat.sub_le _ _

variable {m : Method α β} {a a' : α} {s s' : ParserState}

theorem rank_congr (m : Method α β) (h : s.rest = s'.rest) : m.rank s = m.rank s' := by
  obtain ⟨rest, size⟩ := s
  obtain ⟨rest', size'⟩ := s'
  obtain rfl : rest = rest' := h
  cases m with
  | simpleExpr => cases rest <;> rfl
  | _ => rfl

theorem left_lt (hs : s'.rest <:+ s.rest) (hd : m.depth a' s' < m.depth a s) :
    m.left a' s' < m.left a s := by
  by_cases hrest : s'.rest = s.rest
  · rw [depth, depth, m.rank_congr hrest] at hd
    omega
  · have hlt := Nat.lt_of_le_of_ne hs.length_le fun h => hrest (hs.eq_of_length h)
    cases m with
    | nameEnd =>
      change 32 * _ + 1 < 32 * _ + 1 at hd
      omega
    | _ => exact hlt

theorem depth_le (m : Method α β) (a : α) (s : ParserState) :
    m.depth a s ≤ SyntaxFile.depthBound s.rest.length := by
  have hleft := m.left_le a s
  have hrank := m.rank_lt s
  rw [depth, SyntaxFile.depthBound]
  omega

end Method

namespace Parser

variable {α β : Type} {p q : Parser α} {f g : α → Parser β} {s s' : ParserState}
  {Q : α → ParserState → Prop} {R : β → ParserState → Prop}

/-- Two parsers do the same in a state, and `Q` holds of what they do. -/
structure Agree (p q : Parser α) (s : ParserState) (Q : α → ParserState → Prop) : Prop where
  same : q.run s = p.run s
  yields : p.Yields s Q

namespace Agree

theorem refl (h : p.Yields s Q) : Agree p p s Q := ⟨rfl, h⟩

theorem self (p : Parser α) (s : ParserState) : Agree p p s fun _ _ => True := ⟨rfl, trivial⟩

theorem mono {Q' : α → ParserState → Prop} (h : Agree p q s Q) (hQ : ∀ a s', Q a s' → Q' a s') :
    Agree p q s Q' :=
  ⟨h.same, h.yields.mono hQ⟩

theorem bind (h : Agree p q s Q) (hf : ∀ a s', Q a s' → Agree (f a) (g a) s' R) :
    Agree (p >>= f) (q >>= g) s R := by
  have hnext := hf _ _ h.yields
  refine ⟨?_, hnext.yields⟩
  change (g (q.run s).1).run (q.run s).2 = (f (p.run s).1).run (p.run s).2
  rw [h.same]
  exact hnext.same

theorem follows {certain : Prop} (h : Agree p q s fun _ => Advances certain s) :
    Agree p q s fun _ => Follows s :=
  h.mono fun _ _ h => h.follows

theorem advances {certain : Prop} (h : Agree p q s fun _ => Follows s) (hnot : ¬certain) :
    Agree p q s fun _ => Advances certain s :=
  h.mono fun _ _ h => ⟨h, fun hread => (hnot hread).elim⟩

/-- Both parsers start with the same step. -/
theorem after (h : p.Yields s Q) (hf : ∀ a s', Q a s' → Agree (f a) (g a) s' R) :
    Agree (p >>= f) (p >>= g) s R :=
  (refl h).bind hf

end Agree

theorem agree_get {f g : ParserState → Parser β} :
    Agree (get >>= f) (get >>= g) s R ↔ Agree (f s) (g s) s R :=
  ⟨fun h => ⟨h.same, h.yields⟩, fun h => ⟨h.same, h.yields⟩⟩

theorem agree_bump {f g : LaidToken → Parser β} :
    Agree (bump >>= f) (bump >>= g) s R ↔ Agree (f s.current) (g s.current) s.advance R :=
  ⟨fun h => ⟨h.same, h.yields⟩, fun h => ⟨h.same, h.yields⟩⟩

theorem agree_skip {f g : Unit → Parser β} :
    Agree (skip >>= f) (skip >>= g) s R ↔ Agree (f ()) (g ()) s.advance R :=
  ⟨fun h => ⟨h.same, h.yields⟩, fun h => ⟨h.same, h.yields⟩⟩

/-- The two oracles agree on all that a method asks for whose depth is `d`, behind the same tokens. -/
def Below (M N : Oracle) (d : Nat) (rest : List LaidToken) : Prop :=
  ∀ ⦃α β : Type⦄ (m : Method α β) (a : α) (s : ParserState), s.rest <:+ rest → m.depth a s < d →
    Agree (M m a) (N m a) s fun _ => Advances (m.MustRead s) s

variable {M N : Oracle} {r : Nat}

/-- A method of a lower rank. -/
theorem Below.lower (h : Below M N (32 * s.rest.length + r) s.rest) (m : Method α β) (a : α)
    (hs : s'.rest <:+ s.rest) (hr : (m.rank s').blt r = true) :
    Agree (M m a) (N m a) s' fun _ => Advances (m.MustRead s') s' := by
  refine h m a s' hs ?_
  have hle := hs.length_le
  have hleft := m.left_le a s'
  have hrank : m.rank s' < r := Nat.le_of_ble_eq_true hr
  rw [Method.depth]
  omega

theorem Below.here (h : Below M N (32 * s.rest.length + r) s.rest) (m : Method α β) (a : α)
    (hr : (m.rank s).blt r = true) : Agree (M m a) (N m a) s fun _ => Advances (m.MustRead s) s :=
  h.lower m a (List.suffix_refl _) hr

/-- Any method, once a token has been read. -/
theorem Below.later (h : Below M N (32 * s.rest.length + r) s.rest) (m : Method α β) (a : α)
    (hs : s'.rest <:+ s.rest) (hlt : s'.rest.length < s.rest.length) :
    Agree (M m a) (N m a) s' fun _ => Advances (m.MustRead s') s' := by
  refine h m a s' hs ?_
  have hleft := m.left_le a s'
  have hrank := m.rank_lt s'
  rw [Method.depth]
  omega

/-- Any method behind a token that is read between two steps. -/
theorem Below.behind {s₁ : ParserState} (h : Below M N (32 * s.rest.length + r) s.rest) (m : Method α β)
    (a : α) (h₁ : Follows s s₁) (hs : Follows s₁ s') (hlt : s'.rest.length < s₁.rest.length) :
    Agree (M m a) (N m a) s' fun _ => Follows s' :=
  (h.later m a (h₁.trans hs).suffix (Nat.lt_of_lt_of_le hlt h₁.length_le)).follows

/-- An item and those that are read behind it, once a token has been read. -/
theorem Below.cons {γ δ : Type} {s₁ : ParserState} (h : Below M N (32 * s.rest.length + r) s.rest)
    (item : Method α γ) (a : α) (items : Method δ (List γ)) (b : γ → δ) (h₁ : Follows s s₁)
    (hlt : s₁.rest.length < s.rest.length) :
    Agree (do let x ← M item a; let xs ← M items (b x); return x :: xs)
      (do let x ← N item a; let xs ← N items (b x); return x :: xs) s₁ fun _ => Follows s := by
  refine (h.later item a h₁.suffix hlt).bind fun x s₂ h₂ => ?_
  have k₂ := h₁.trans h₂.follows
  have hlt₂ := Nat.lt_of_le_of_lt h₂.follows.length_le hlt
  exact (h.later items (b x) k₂.suffix hlt₂).bind fun xs s₃ h₃ => .refl (k₂.trans h₃.follows)

/-- Any method of a rank below 20, behind the first token of a construct. -/
theorem Below.inside (h : Below M N (32 * s.rest.length + if s.atEnd then 20 else 3) s.rest)
    (m : Method α β) (a : α) (hs : s'.rest <:+ s.advance.rest) (hr : (m.rank s').blt 20 = true) :
    Agree (M m a) (N m a) s' fun _ => Follows s' := by
  have hs' := hs.trans (follows_advance s).suffix
  cases hend : s.atEnd with
  | true =>
    rw [hend] at h
    exact (h.lower m a hs' hr).follows
  | false => exact (h.later m a hs' (Nat.lt_of_le_of_lt hs.length_le (length_advance hend))).follows

/-! Steps that both parsers share -/

theorem eat_moves (token : Token) (s : ParserState) :
    (eat token).Yields s fun found => Advances (found.isSome = true ∧ token ≠ .eof) s := by
  rw [yields_eat]
  split
  case isTrue hpeek => exact ⟨follows_advance s, fun h => advance_lt hpeek h.2⟩
  case isFalse => exact ⟨Passes.refl s, fun h => by cases h.1⟩

theorem expect_moves (token : Token) (what : String) (s : ParserState) :
    (expect token what).Yields s fun found => Advances (found.isSome = true ∧ token ≠ .eof) s := by
  rw [expect, yields_bind]
  refine (eat_moves token s).mono fun found s₁ h₁ => ?_
  cases found with
  | some span => exact h₁
  | none => exact ⟨h₁.follows.trans (missing_passes what s₁), fun h => by cases h.1⟩

theorem ident?_moves (s : ParserState) :
    ident?.Yields s fun found => Advances (found.isSome = true) s := by
  refine (ident?_reads s).mono fun found s' h => ?_
  obtain ⟨rfl, rfl⟩ | ⟨name, rfl, -, hend, rfl⟩ := h
  · exact ⟨Passes.refl s', fun h => by cases h⟩
  · exact ⟨follows_advance s, fun _ => length_advance hend⟩

theorem readSegments_follows (s : ParserState) : readSegments.Yields s fun _ => Follows s := by
  obtain ⟨read, heq, -, hstop⟩ := segments_read s.rest
  exact ⟨read, ⟨heq, (hstop _).symm, List.prefix_rfl, rfl, rfl, rfl, rfl⟩, fun _ _ h => h.elim⟩

theorem longIdent?_moves (s : ParserState) :
    longIdent?.Yields s fun found => Advances (found.isSome = true) s := by
  rw [longIdent?, yields_bind]
  refine (ident?_moves s).mono fun found s₁ h₁ => ?_
  cases found with
  | none => exact ⟨h₁.1, fun h => by cases h⟩
  | some first =>
    have h₂ : Follows s₁ (readSegments.run s₁).2 := readSegments_follows s₁
    exact ⟨h₁.1.trans h₂, fun _ => Nat.lt_of_le_of_lt h₂.length_le (h₁.2 rfl)⟩

theorem skip_moves (s : ParserState) :
    skip.Yields s fun _ => Advances (s.atEnd = false) s :=
  ⟨follows_advance s, length_advance⟩

theorem reject_moves (s : ParserState) :
    reject.Yields s fun _ => Advances (s.atEnd = false) s := by
  refine ⟨reject_passes s, fun hend => ?_⟩
  have hrest := (reject_reads hend).1.rest
  rw [hrest]
  exact Nat.lt_succ_self _

/-- Behind a step that may have read nothing `ifStuck` has read a token, unless the file ends. -/
theorem ifStuck_moves {p : Parser Unit} (hs : s'.rest <:+ s.rest)
    (hp : p.Yields s' fun _ => Advances (s'.atEnd = false) s') :
    (ifStuck s.rest.length p).Yields s' fun _ s'' =>
      Follows s' s'' ∧ (s.atEnd = false → s''.rest.length < s.rest.length) := by
  simp only [ifStuck, yields_bind, yields_get]
  split
  case isTrue hstuck =>
    refine hp.mono fun _ s'' h => ⟨h.1, fun hend => ?_⟩
    rw [← hstuck]
    refine h.2 ?_
    rwa [atEnd, hs.eq_of_length hstuck]
  case isFalse hstuck => exact ⟨Passes.refl s', fun _ => Nat.lt_of_le_of_ne hs.length_le hstuck⟩

theorem setAnchor_follows (s : ParserState) : setAnchor.Yields s fun _ => Follows s := passes_anchor s _

theorem atStatement_moves (column : Nat) (s : ParserState) :
    (atStatement column).Yields s fun found s' => s' = s ∧ (found = true → s.atEnd = false) := by
  refine ⟨rfl, fun h => ?_⟩
  change (!s.atEnd && s.current.lineStart && s.current.column == column && !_) = true at h
  simp only [Bool.and_eq_true, Bool.not_eq_true'] at h
  exact h.1.1.1

/-! Steps around the methods that a round asks for -/

theorem Agree.run_bind (h : Agree p q s Q) (f : α → Parser β) : (q >>= f).run s = (p >>= f).run s :=
  (h.bind (R := fun _ _ => True) fun _ _ _ => .refl trivial).same

theorem Agree.map {Q : ParserState → Prop} (h : Agree p q s fun _ => Q) (f : α → β) :
    Agree (f <$> p) (f <$> q) s fun _ => Q where
  same := h.run_bind fun a => pure (f a)
  yields := h.yields

theorem nested_agree (h : Agree p q { s with nesting := s.nesting + 1 } fun _ =>
    Follows { s with nesting := s.nesting + 1 }) :
    Agree (nested p) (nested q) s fun _ => Follows s where
  same := h.run_bind fun a => show Parser α from do
    modify fun s : ParserState => { s with nesting := s.nesting - 1 }
    return a
  yields := nested_takes (A := fun _ _ => False) h.yields

theorem withOffside_agree {column : Nat} (h : Agree p q { s with offside := column } fun _ =>
    Follows { s with offside := column }) :
    Agree (withOffside column p) (withOffside column q) s fun _ => Follows s where
  same := h.run_bind fun a => show Parser α from do
    modify fun s' : ParserState => { s' with offside := s.offside }
    return a
  yields := withOffside_takes (A := fun _ _ => False) h.yields

theorem behind?_agree {token : Token} (htoken : token ≠ .eof)
    (h : ∀ s', Follows s s' → s'.rest.length < s.rest.length → Agree p q s' fun _ => Follows s') :
    Agree (behind? token p) (behind? token q) s fun _ => Follows s := by
  refine .after (eat_moves token s) fun found s₁ h₁ => ?_
  cases found with
  | none => exact .refl h₁.1
  | some span => exact (h s₁ h₁.1 (h₁.2 ⟨rfl, htoken⟩)).bind fun a s₂ h₂ => .refl (h₁.1.trans h₂)

theorem behind_agree {token : Token} (htoken : token ≠ .eof) {what : String} {p q : Parser Expr}
    (h : ∀ s', Follows s s' → s'.rest.length < s.rest.length → Agree p q s' fun _ => Follows s') :
    Agree (behind token what p) (behind token what q) s fun _ => Follows s := by
  refine .after (expect_moves token what s) fun found s₁ h₁ => ?_
  cases found with
  | none => exact .refl h₁.1
  | some span => exact (h s₁ h₁.1 (h₁.2 ⟨rfl, htoken⟩)).mono fun a s₂ h₂ => h₁.1.trans h₂

theorem bindingPattern_agree {p q : Parser Pattern} (h : Agree p q s fun _ => Follows s) :
    Agree (bindingPattern p) (bindingPattern q) s fun _ => Follows s := by
  simp only [bindingPattern, agree_get]
  split
  · exact h
  · exact h
  · exact .refl (missing_passes _ s)

theorem blockRest_agree {column : Nat} {b : Binding} {p q : Parser Expr}
    (h : Agree p q s fun _ => Follows s) :
    Agree (blockRest column b p) (blockRest column b q) s fun _ => Follows s := by
  refine .after (atStatement_moves column s) fun found s₁ h₁ => ?_
  obtain ⟨rfl, -⟩ := h₁
  cases found with
  | true => exact h
  | false => exact .refl (passes_report _ _)

theorem thenPart_agree {p q : Parser Expr}
    (h : ∀ s', Follows s s' → s'.rest.length < s.rest.length → Agree p q s' fun _ => Follows s') :
    Agree (thenPart p) (thenPart q) s fun _ => Follows s := by
  simp only [thenPart, agree_get]
  split
  · exact .refl (missing_passes _ s)
  · exact behind_agree (by simp) h

theorem elsePart_agree {p q : Parser Expr}
    (h : ∀ s', Follows s s' → s'.rest.length < s.rest.length → Agree p q s' fun _ => Follows s') :
    Agree (elsePart p) (elsePart q) s fun _ => Follows s := by
  simp only [elsePart, agree_get]
  split
  case isTrue helse =>
    rw [agree_skip]
    have h₁ := follows_advance s
    have hlt := advance_lt (peek_of_test helse) (by simp)
    exact (h _ h₁ hlt).bind fun e s₂ h₂ => .refl (h₁.trans h₂)
  case isFalse => exact .refl (Passes.refl s)

theorem rightOperand_agree {p q p' q' : Parser Expr} (h : Agree p q s fun _ => Follows s)
    (h' : Agree p' q' s fun _ => Follows s) :
    Agree (rightOperand p p') (rightOperand q q') s fun _ => Follows s := by
  simp only [rightOperand, agree_get]
  split
  · exact h
  · exact h'

section

variable {close : Punct} {unclosed : SyntaxError} {item item' : Parser (Option α)}

theorem itemsRound_agree {more more' : Parser (List α × Nat)}
    (hitem : ∀ s', s'.rest <:+ s.rest → Agree item item' s' fun _ => Follows s')
    (hmore : ∀ s', s'.rest <:+ s.rest → s'.rest.length < s.rest.length →
      Agree more more' s' fun _ => Follows s') :
    Agree (itemsRound close unclosed item more) (itemsRound close unclosed item' more') s
      fun _ => Follows s := by
  refine .after (eat_moves _ s) fun found s₁ h₁ => ?_
  cases found with
  | some span => exact .refl h₁.1
  | none =>
    simp only [agree_get]
    split
    case isTrue => exact .refl (h₁.1.trans (passes_report s₁ _))
    case isFalse hcolumn =>
      have hend := atEnd_of_not_beforeColumn hcolumn
      refine .after (eat_moves _ s₁) fun found s₂ h₂ => ?_
      have hs₂ := h₁.1.trans h₂.1
      cases found with
      | some span =>
        have hlt := Nat.lt_of_lt_of_le (h₂.2 ⟨rfl, by simp⟩) h₁.1.length_le
        exact (hmore s₂ hs₂.suffix hlt).mono fun _ s₃ h₃ => hs₂.trans h₃
      | none =>
        refine .after (setAnchor_follows s₂) fun _ s₃ h₃ => ?_
        refine (hitem s₃ (hs₂.trans h₃).suffix).bind fun found s₄ h₄ => ?_
        have hs₄ := (h₂.1.trans h₃).trans h₄
        refine .after (ifStuck_moves hs₄.suffix (reject_moves s₄)) fun _ s₅ h₅ => ?_
        have hs₅ := h₁.1.trans (hs₄.trans h₅.1)
        have hlt := Nat.lt_of_lt_of_le (h₅.2 hend) h₁.1.length_le
        exact (hmore s₅ hs₅.suffix hlt).bind fun r s₆ h₆ => .refl (hs₅.trans h₆)

theorem sequenceItems_agree (n : Nat)
    (hitem : ∀ s', s'.rest <:+ s.rest → Agree item item' s' fun _ => Follows s') :
    Agree (sequenceItems close unclosed item n) (sequenceItems close unclosed item' n) s
      fun _ => Follows s := by
  induction n generalizing s with
  | zero => exact .refl (Passes.refl s)
  | succ n ih =>
    exact itemsRound_agree hitem fun s' hs' _ => ih fun s'' hs'' => hitem s'' (hs''.trans hs')

theorem sequenceItems_eq_round (k : Nat)
    (hitem : ∀ s', s'.rest <:+ s.rest → Agree item item' s' fun _ => Follows s') :
    (sequenceItems close unclosed item' (k + 1)).run s =
      (itemsRound close unclosed item (sequenceItems close unclosed item k)).run s :=
  (itemsRound_agree hitem fun _ hs _ =>
    sequenceItems_agree k fun s'' hs' => hitem s'' (hs'.trans hs)).same

theorem bracketRound_agree {delimiter : Char} {items items' : SyntaxError → Parser (List α × Nat)}
    (h : ∀ e s', s'.rest = s.advance.rest → Agree (items e) (items' e) s' fun _ => Follows s') :
    Agree (bracketRound close delimiter items) (bracketRound close delimiter items') s
      fun _ => Follows s.advance := by
  simp only [bracketRound, agree_bump, agree_get]
  exact nested_agree (withOffside_agree (h _ _ rfl))

end

end Parser
end ScriptAnalyzer

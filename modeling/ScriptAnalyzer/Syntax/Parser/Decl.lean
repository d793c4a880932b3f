import ScriptAnalyzer.Syntax.Parser.Expr

/-!
Declarations. Those of a file or a module all start at one column. Behind a declaration the parser
skips to the next token that starts a line at or left of that column, and reports what it skips.
-/

namespace ScriptAnalyzer
namespace Parser

/-- The name behind `module` at the top of a file. A module that is followed by `=` is a declaration
and no header. -/
def header : Parser (Option LongIdent) := do
  let s ← get
  if s.peek ≠ .keyword .moduleKw then return none
  let behindName := s.rest.tail.dropWhile fun t => t.token.isIdent || t.token == .punct .dot
  if (behindName.head?.map (·.token)) = some (.operator .eq) then return none
  skip
  match ← longIdent? with
  | some name => return some name
  | none => unexpected; return none

/-- The fields of a record type; the next token is the opening brace. -/
def fieldDecls (unclosed : SyntaxError) : Nat → Parser (List (Ident × TypeExpr))
  | 0 => return []
  | n + 1 => do
    match ← eat (.punct .rbrace) with
    | some _ => return []
    | none =>
      let s ← get
      if s.beforeColumn s.offside then
        report unclosed
        return []
      match ← eat (.punct .semicolon) with
      | some _ => fieldDecls unclosed n
      | none =>
        match ← ident? with
        | none =>
          reject
          fieldDecls unclosed n
        | some name =>
          let _ ← expect (.punct .colon) "':'"
          let fieldType ← type n
          let fields ← fieldDecls unclosed n
          return (name, fieldType) :: fields

def typeDecl (n : Nat) : Parser (Span → Decl) := do
  skip
  match ← ident? with
  | none => missing "a type name"; return .error
  | some name =>
    match ← expect (.operator .eq) "'='" with
    | none => return .error
    | some _ =>
      if (← get).peek = .punct .lbrace then
        let opener ← bump
        let s ← get
        let unclosed : SyntaxError :=
          { cause := .unclosedDelimiter '\x7b', span := opener.span
            hint := some "close the record with '\x7d'" }
        let fields ← nested (withOffside (max s.offside s.current.column) (fieldDecls unclosed n))
        return (.type · name (.record fields))
      else
        let abbreviated ← type n
        return (.type · name (.abbreviation abbreviated))

/-- The argument of a directive that a token is. -/
def directiveArg? (t : LaidToken) : Option Ident :=
  match t.token with
  | .string raw | .unclosedString raw => some ⟨String.ofList (Literal.unquote raw.toList), t.span⟩
  | .ident text | .int text => some ⟨text, t.span⟩
  | _ => none

/-- The arguments of a directive: all tokens up to the end of the line. -/
def directiveArgs (invalid : SyntaxError.Cause) : Nat → Parser (List Ident)
  | 0 => return []
  | n + 1 => do
    let t := (← get).current
    if t.lineStart then return []
    let arg := directiveArg? t
    when arg.isNone (error invalid t.span)
    skip
    let args ← directiveArgs invalid n
    return arg.toList ++ args

/-- Directives that bring other files into a script; module files may not use them. -/
def isScriptDirective (name : String) : Bool := name == "r" || name == "load"

def directive (raw : String) (n : Nat) : Parser Directive := do
  let t ← bump
  let name : Ident := ⟨String.ofList (raw.toList.dropWhile (· == '#')), ⟨t.span.start + 1, t.span.stop⟩⟩
  let args ← directiveArgs (.invalidDirective ("#" ++ name.text)) n
  when ((← get).kind = .module && isScriptDirective name.text) <|
    report { cause := .invalidDirective raw, span := t.span
             hint := some "only allowed in script files" }
  return { name, args, span := ⟨t.span.start, (← get).prevEnd⟩ }

mutual

/-- Declarations that start at `column`, up to a line further left. -/
def decls : Nat → Nat → Parser (List Decl)
  | 0, _ => return []
  | n + 1, column => do
    let s ← get
    let t := s.current
    if s.beforeColumn column then return []
    if !t.lineStart || column < t.column then
      error (if t.lineStart then .offside else .unexpectedToken t.token.text) t.span
      skip
      synchronize column
      decls n column
    else
      setAnchor
      let d ← decl n column
      ifStuck s.rest.length reject
      when (!(← get).current.lineStart) unexpected
      synchronize column
      let ds ← decls n column
      return d :: ds

def decl : Nat → Nat → Parser Decl
  | 0, _ => return .error default
  | n + 1, column => do
    let s ← get
    let start := s.current.span.start
    let shape ← (match s.peek with
      | .keyword .letKw => do
        let b ← binding n
        if (← get).peek = .keyword .inKw then
          let e ← letScope n b
          return (Decl.expr · e)
        else return (Decl.binding · b)
      | .keyword .openKw => do
        skip
        match ← longIdent? with
        | some path => return (Decl.open · path)
        | none => missing "a namespace or module name"; return Decl.error
      | .keyword .moduleKw => moduleDecl n column
      | .keyword .typeKw => typeDecl n
      | .directive raw => do
        let d ← directive raw s.rest.length
        return (Decl.directive · d)
      | .keyword .doKw => do
        skip
        let e ← body n
        return (Decl.expr · e)
      | _ => do
        let e ← expr n
        skipStray
        return (Decl.expr · e) : Parser (Span → Decl))
    return shape ⟨start, max (← get).prevEnd start⟩

/-- A module with its declarations, which stand further right than the module itself. -/
def moduleDecl : Nat → Nat → Parser (Span → Decl)
  | 0, _ => return .error
  | n + 1, column => do
    skip
    match ← ident? with
    | none => missing "a module name"; return .error
    | some name =>
      match ← expect (.operator .eq) "'='" with
      | none => return .error
      | some _ =>
        let s ← get
        if s.atEnd || !s.current.lineStart || s.current.column ≤ column then
          error (.expected "indented declarations") (.empty s.prevEnd)
          return (.module · name [])
        else
          let inner := s.current.column
          let members ← withOffside inner (decls n inner)
          return (.module · name members)

end

/-- A whole file: the header and the declarations. -/
def file (n : Nat) : Parser (Option LongIdent × List Decl) := do
  let name ← header
  let column := (← get).current.column
  let members ← withOffside column (decls n column)
  return (name, members)

end Parser
end ScriptAnalyzer
